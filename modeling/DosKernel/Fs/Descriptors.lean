import Mathlib.Algebra.Group.Nat.Defs
import DosKernel.Fs.Coherence

/-! The file descriptors of a process. `process_open_file` takes the first slot that is not
in use and fills it field by field; `process_close_file` only marks the slot as unused.
`read` and `write` then choose a device by the fields of the slot. -/

namespace DosKernel.Vfs

def enotdir : ℤ := 20

def ebadfd : ℤ := 77

/-- `S_IFCHR` and `S_IFREG`. -/
def sIfchr : ℕ := 0x2000

def sIfreg : ℕ := 0x8000

def oDirectory : ℕ := 65536

def ttysCount : ℤ := 4

def sizeofTty : ℕ := 68

/-- `file_descriptor`. A terminal is its address, there is one framebuffer, and `none` is the
mount of zeroed memory. -/
structure Descriptor where
  used : Bool
  type : ℕ
  mount : Option Mount
  st : Stat
  name : List Char
  tty : ℕ
  fb : Bool
  offset : ℕ
  flags : ℕ
  read : Bool
  write : Bool

/-- A slot from `calloc`. -/
def Descriptor.zero : Descriptor where
  used := false
  type := 0
  mount := none
  st := ⟨0, 0, 0, 0, 0, 0, 0, 0, 0, 0, 0, 0, 0, 0⟩
  name := []
  tty := 0
  fb := false
  offset := 0
  flags := 0
  read := false
  write := false

/-- The file systems, whether memory can be allocated, the array of the terminals and the
current one. -/
structure Env where
  root : Option Mount
  mounts : List Mount
  allocated : Bool
  ttys : ℕ
  currentTty : ℤ

/-! ### The code -/

def isspace (c : Char) : Bool := c = ' ' ∨ c = '\t' ∨ (9 ≤ c.toNat ∧ c.toNat ≤ 13)

/-- The loop of `strtol` in base ten; a character that is no digit makes the result zero. -/
def strtolFrom (value : ℤ) : List Char → ℤ
  | [] => value
  | c :: cs =>
    if '0' ≤ c ∧ c ≤ '9' then strtolFrom (Int.bmod (value * 10 + (c.toNat - 48)) (2 ^ 32)) cs else 0

def atoi (str : List Char) : ℤ :=
  match str.dropWhile isspace with
  | '-' :: cs => Int.bmod (-strtolFrom 0 cs) (2 ^ 32)
  | '+' :: cs => strtolFrom 0 cs
  | cs => strtolFrom 0 cs

def ttyOpen (env : Env) (num : ℤ) : ℕ :=
  if num < 0 ∨ ttysCount ≤ num then 0 else env.ttys + num.toNat * sizeofTty

/-- The rights that the flags add to those of the slot. -/
def Descriptor.grant (d : Descriptor) (flags : ℕ) : Descriptor :=
  if flags &&& 0x3 = 0 then { d with read := true }
  else if flags &&& 0x3 = 1 then { d with write := true }
  else if flags &&& 0x3 = 2 then { d with read := true, write := true }
  else d

/-- `strncmp(path, "/dev/tty", 8) == 0`. -/
def isTtyPath (path : List Char) : Bool := path.take 8 = "/dev/tty".toList

/-- `strncmp(path, "/dev/fb", 7) == 0`. -/
def isFbPath (path : List Char) : Bool := path.take 7 = "/dev/fb".toList

def ttyNum (env : Env) (path : List Char) : ℤ :=
  if atoi (path.drop 8) = 0 then env.currentTty + 1 else atoi (path.drop 8)

/-- A terminal is opened. A number that is too large leaves the slot in use. -/
def openTty (env : Env) (d : Descriptor) (path : List Char) : ℤ × Descriptor :=
  let d' := { d with type := sIfchr }
  if atoi (path.drop 8) ≠ 0 ∧ ttysCount < atoi (path.drop 8) then (-enoent, d')
  else (0, { d' with tty := ttyOpen env (ttyNum env path - 1) })

def openFb (d : Descriptor) (path : List Char) : ℤ × Descriptor :=
  let d' := { d with type := sIfchr }
  if 0 < atoi (path.drop 7) then (-enoent, d') else (0, { d' with fb := true })

/-- An object of a file system is opened; `vfs_stat` stores no mount for `/`. -/
def openObject (env : Env) (d : Descriptor) (path : List Char) (flags : ℕ) : ℤ × Descriptor :=
  match vfsStat env.root env.mounts env.allocated (some path) with
  | .error e => (e, { d with used := false })
  | .ok (mount, st) =>
    let d' := { d with mount := mount.or d.mount, st := st, type := st.mode &&& sIfmt }
    if flags &&& oDirectory ≠ 0 ∧ st.mode &&& sIfdir = 0 then (-enotdir, { d' with used := false })
    else (0, d')

/-- The body of the loop in `process_open_file`, for a slot that is not in use. `strncpy` stores
a 0 behind the 256 characters of the name, in the low byte of `tty`. -/
def openSlot (env : Env) (d : Descriptor) (path : List Char) (flags : ℕ) : ℤ × Descriptor :=
  let d' := { d with
    used := true, flags := flags, offset := 0
    name := path.take 256, tty := d.tty / 256 * 256 }.grant flags
  if isTtyPath path then openTty env d' path
  else if isFbPath path then openFb d' path
  else openObject env d' path flags

/-- `p->fd_count`. -/
def fdCount : ℕ := 256

/-- `process_open_file`, with the slots afterwards. -/
def processOpenFile (env : Env) (fd : ℕ → Descriptor) (path : List Char) (flags : ℕ) :
    ℤ × (ℕ → Descriptor) :=
  match (List.range fdCount).find? fun i => !(fd i).used with
  | none => (-enomem, fd)
  | some i =>
    let r := openSlot env (fd i) path flags
    (if r.1 = 0 then i else r.1, Function.update fd i r.2)

def processCloseFile (fd : ℕ → Descriptor) (i : ℕ) : ℤ × (ℕ → Descriptor) :=
  if i < fdCount ∧ (fd i).used then (0, Function.update fd i { fd i with used := false })
  else (-ebadfd, fd)

/-! ### What a descriptor gives access to -/

/-- What `read` and `write` go to. -/
inductive Device
  | tty (tty : ℕ)
  | fb
  | file (mount : Option Mount) (st : Stat)
  | directory (mount : Option Mount) (st : Stat)
  | nothing

/-- The tests of `read` and `write`, in their order. -/
def Descriptor.device (d : Descriptor) : Device :=
  if d.type = sIfchr ∧ d.tty ≠ 0 then .tty d.tty
  else if d.type = sIfchr ∧ d.fb then .fb
  else if d.type = sIfreg then .file d.mount d.st
  else if d.type = sIfdir then .directory d.mount d.st
  else .nothing

structure View where
  type : ℕ
  read : Bool
  write : Bool
  device : Device

def Descriptor.view (d : Descriptor) : View := ⟨d.type, d.read, d.write, d.device⟩

/-- What is opened in a slot that was never used. -/
def freshView (env : Env) (path : List Char) (flags : ℕ) : View :=
  (openSlot env .zero path flags).2.view

inductive FdOp
  | open (env : Env) (path : List Char) (flags : ℕ)
  | close (i : ℕ)

def FdOp.run (fd : ℕ → Descriptor) : FdOp → ℕ → Descriptor
  | .open env path flags => (processOpenFile env fd path flags).2
  | .close i => (processCloseFile fd i).2

def slots (os : List FdOp) : ℕ → Descriptor := os.foldl FdOp.run fun _ => .zero

def readable (flags : ℕ) : Bool := flags &&& 0x3 = 0 ∨ flags &&& 0x3 = 2

def writable (flags : ℕ) : Bool := flags &&& 0x3 = 1 ∨ flags &&& 0x3 = 2

/-- The slot held no device or mount where the path leaves these fields alone and `read`
and `write` look at them: no framebuffer for a terminal that does not exist, no terminal
for the framebuffer, neither for a character device of a file system, and no mount for
the path `/`. The address of a terminal loses its low byte, but is a null pointer then only if
it was below 256. -/
def DeviceClean (env : Env) (d : Descriptor) (path : List Char) : Prop :=
  if isTtyPath path then ttyOpen env (ttyNum env path - 1) = 0 → d.fb = false
  else if isFbPath path then d.tty < 256
  else ∀ r, vfsStat env.root env.mounts env.allocated (some path) = .ok r →
    (r.2.mode &&& sIfmt = sIfchr → d.tty < 256 ∧ d.fb = false) ∧
    (r.2.mode &&& sIfmt = sIfreg ∨ r.2.mode &&& sIfmt = sIfdir → r.1 = none → d.mount = none)

/-- The slot held no right that the flags do not ask for, and no device in the way. -/
def Clean (env : Env) (d : Descriptor) (path : List Char) (flags : ℕ) : Prop :=
  (d.read = true → readable flags = true) ∧ (d.write = true → writable flags = true) ∧
    DeviceClean env d path

/-! ### Errors are negative -/

theorem walkTokens_neg {mounts : List Mount} {s : Walk} {ts : List (List Char)} {e : ℤ}
    (h : walkTokens mounts s ts = .error e) : e < 0 := by
  induction ts generalizing s with
  | nil => cases h
  | cons t ts ih =>
    rw [walkTokens] at h
    split_ifs at h
    rcases hv : s.visit mounts t with e' | s'
    · rw [hv] at h
      cases h
      exact Walk.visit_neg hv
    · rw [hv] at h
      exact ih h

theorem vfsStat_neg {root : Option Mount} {mounts : List Mount} {allocated : Bool}
    {path : List Char} {e : ℤ} (h : vfsStat root mounts allocated (some path) = .error e) :
    e < 0 := by
  have hconstants : -enodev < 0 ∧ -einval < 0 ∧ -enomem < 0 := by decide
  cases root with
  | none =>
    cases h
    exact hconstants.1
  | some root =>
    by_cases hpath : path = []
    · subst hpath
      cases h
      exact hconstants.2.1
    by_cases hroot : path = ['/']
    · subst hroot
      cases h
    cases allocated with
    | false =>
      rw [vfsStat, if_neg hpath, if_neg hroot] at h
      cases h
      exact hconstants.2.2
    | true =>
      rw [vfsStat_tokens root mounts hpath hroot] at h
      rcases hw : walkTokens mounts ⟨root, root.rootdir, root.rootdir⟩ (tokens path) with e' | s
      · rw [hw] at h
        cases h
        exact walkTokens_neg hw
      · rw [hw] at h
        cases h

/-! ### Rights and devices -/

theorem grant_eq (d : Descriptor) (flags : ℕ) : d.grant flags =
    { d with read := d.read || readable flags, write := d.write || writable flags } := by
  rw [Descriptor.grant]
  split_ifs with h0 h1 h2 <;> simp [readable, writable, *]

/-- The slot as it is before the path is looked at. -/
def Descriptor.prepare (d : Descriptor) (path : List Char) (flags : ℕ) : Descriptor :=
  { d with
    used := true
    flags := flags
    offset := 0
    name := path.take 256
    tty := d.tty / 256 * 256
    read := d.read || readable flags
    write := d.write || writable flags }

theorem openSlot_eq (env : Env) (d : Descriptor) (path : List Char) (flags : ℕ) :
    openSlot env d path flags =
      if isTtyPath path then openTty env (d.prepare path flags) path
      else if isFbPath path then openFb (d.prepare path flags) path
      else openObject env (d.prepare path flags) path flags := by
  rw [openSlot, grant_eq]
  rfl

section Device
variable {d : Descriptor}

theorem device_chr (h : d.type = sIfchr) : d.device =
    if d.tty ≠ 0 then .tty d.tty else if d.fb then .fb else .nothing := by
  have hreg : sIfchr ≠ sIfreg := by decide
  have hdir : sIfchr ≠ sIfdir := by decide
  rw [Descriptor.device, h, if_neg hreg, if_neg hdir]
  simp only [true_and]

theorem device_reg (h : d.type = sIfreg) : d.device = .file d.mount d.st := by
  have hchr : sIfreg ≠ sIfchr := by decide
  rw [Descriptor.device, h, if_neg (fun h' => hchr h'.1), if_neg (fun h' => hchr h'.1), if_pos rfl]

theorem device_dir (h : d.type = sIfdir) : d.device = .directory d.mount d.st := by
  have hchr : sIfdir ≠ sIfchr := by decide
  have hreg : sIfdir ≠ sIfreg := by decide
  rw [Descriptor.device, h, if_neg (fun h' => hchr h'.1), if_neg (fun h' => hchr h'.1), if_neg hreg,
    if_pos rfl]

theorem device_other (hchr : d.type ≠ sIfchr) (hreg : d.type ≠ sIfreg) (hdir : d.type ≠ sIfdir) :
    d.device = .nothing := by
  rw [Descriptor.device, if_neg (fun h => hchr h.1), if_neg (fun h => hchr h.1), if_neg hreg,
    if_neg hdir]

end Device

section Opened
variable {env : Env} {d : Descriptor} {path : List Char} {flags : ℕ}

theorem openTty_ok (h : (openTty env d path).1 = 0) (d' : Descriptor) :
    (openTty env d' path).2 = { d' with type := sIfchr, tty := ttyOpen env (ttyNum env path - 1) } := by
  have herror : -enoent ≠ 0 := by decide
  rw [openTty] at h ⊢
  split_ifs at h ⊢
  · exact absurd h herror
  · rfl

theorem openFb_ok (h : (openFb d path).1 = 0) (d' : Descriptor) :
    (openFb d' path).2 = { d' with type := sIfchr, fb := true } := by
  have herror : -enoent ≠ 0 := by decide
  rw [openFb] at h ⊢
  split_ifs at h ⊢
  · exact absurd h herror
  · rfl

theorem openObject_ok {mount : Option Mount} {st : Stat}
    (hstat : vfsStat env.root env.mounts env.allocated (some path) = .ok (mount, st))
    (h : (openObject env d path flags).1 = 0) (d' : Descriptor) :
    (openObject env d' path flags).2 =
      { d' with mount := mount.or d'.mount, st := st, type := st.mode &&& sIfmt } := by
  have herror : -enotdir ≠ 0 := by decide
  rw [openObject, hstat] at h ⊢
  dsimp only at h ⊢
  split_ifs at h ⊢
  · exact absurd h herror
  · rfl

theorem view_eq_iff (d d' : Descriptor) : d.view = d'.view ↔
    d.type = d'.type ∧ d.read = d'.read ∧ d.write = d'.write ∧ d.device = d'.device := by
  simp only [Descriptor.view, View.mk.injEq]

theorem or_eq_iff (a b : Bool) : (a || b) = (false || b) ↔ (a = true → b = true) := by
  cases a <;> cases b <;> decide

/-- Two slots of one type, the rights of the first added to those of `d`. -/
theorem view_eq_iff_of_rights {e e' : Descriptor} {P : Prop} (d : Descriptor)
    (htype : e.type = e'.type) (hread : e.read = (d.read || readable flags))
    (hread' : e'.read = (false || readable flags)) (hwrite : e.write = (d.write || writable flags))
    (hwrite' : e'.write = (false || writable flags)) (hdevice : e.device = e'.device ↔ P) :
    e.view = e'.view ↔ (d.read = true → readable flags = true) ∧
      (d.write = true → writable flags = true) ∧ P := by
  rw [view_eq_iff, hread, hread', hwrite, hwrite', or_eq_iff, or_eq_iff, hdevice]
  exact and_iff_right htype

theorem ttyDevice_eq_iff (tty : ℕ) (fb : Bool) :
    (if tty ≠ 0 then Device.tty tty else if fb then .fb else .nothing) =
        (if tty ≠ 0 then Device.tty tty else if false then .fb else .nothing) ↔
      (tty = 0 → fb = false) := by
  by_cases h0 : tty = 0
  · cases fb <;> simp [h0]
  · simp [h0]

theorem clearLow_eq_zero_iff (tty : ℕ) : tty / 256 * 256 = 0 ↔ tty < 256 := by omega

theorem chrDevice_eq_iff (tty : ℕ) (fb : Bool) :
    (if tty ≠ 0 then Device.tty tty else if fb then .fb else .nothing) = .nothing ↔
      tty = 0 ∧ fb = false := by
  by_cases h0 : tty = 0
  · cases fb <;> simp [h0]
  · simp [h0]

theorem objectDevice_eq_iff (d : Descriptor) (path : List Char) (flags : ℕ) (mount : Option Mount)
    (st : Stat) :
    ({ d.prepare path flags with
        mount := mount.or d.mount, st := st, type := st.mode &&& sIfmt } : Descriptor).device =
      ({ Descriptor.zero.prepare path flags with
        mount := mount.or none, st := st, type := st.mode &&& sIfmt } : Descriptor).device ↔
    (st.mode &&& sIfmt = sIfchr → d.tty < 256 ∧ d.fb = false) ∧
    (st.mode &&& sIfmt = sIfreg ∨ st.mode &&& sIfmt = sIfdir → mount = none → d.mount = none) := by
  have hmount : (mount.or d.mount = mount.or none) ↔ (mount = none → d.mount = none) := by
    cases mount <;> simp
  have hdistinct : sIfchr ≠ sIfreg ∧ sIfchr ≠ sIfdir := by decide
  by_cases hchr : st.mode &&& sIfmt = sIfchr
  · have hother : ¬ (st.mode &&& sIfmt = sIfreg ∨ st.mode &&& sIfmt = sIfdir) := by
      rw [hchr]
      exact not_or.mpr hdistinct
    rw [device_chr hchr, device_chr hchr]
    have hiff := (chrDevice_eq_iff (d.tty / 256 * 256) d.fb).trans
      (and_congr_left' (clearLow_eq_zero_iff d.tty))
    exact ⟨fun h => ⟨fun _ => hiff.mp h, fun h' => absurd h' hother⟩, fun h => hiff.mpr (h.1 hchr)⟩
  by_cases hreg : st.mode &&& sIfmt = sIfreg
  · rw [device_reg hreg, device_reg hreg, Device.file.injEq, hmount]
    exact ⟨fun h => ⟨fun h' => absurd h' hchr, fun _ => h.1⟩, fun h => ⟨h.2 (.inl hreg), rfl⟩⟩
  by_cases hdir : st.mode &&& sIfmt = sIfdir
  · rw [device_dir hdir, device_dir hdir, Device.directory.injEq, hmount]
    exact ⟨fun h => ⟨fun h' => absurd h' hchr, fun _ => h.1⟩, fun h => ⟨h.2 (.inr hdir), rfl⟩⟩
  · rw [device_other hchr hreg hdir, device_other hchr hreg hdir]
    exact ⟨fun _ => ⟨fun h => absurd h hchr, fun h => absurd h (not_or.mpr ⟨hreg, hdir⟩)⟩,
      fun _ => rfl⟩

/-- A slot shows what a fresh one would exactly when it is clean. -/
theorem openSlot_view_iff (h : (openSlot env d path flags).1 = 0) :
    (openSlot env d path flags).2.view = freshView env path flags ↔ Clean env d path flags := by
  rw [freshView, Clean, DeviceClean]
  rw [openSlot_eq] at h ⊢
  rw [openSlot_eq]
  split_ifs at h ⊢ with htty hfb
  · rw [openTty_ok h, openTty_ok h]
    refine view_eq_iff_of_rights d rfl rfl rfl rfl rfl ?_
    rw [device_chr rfl, device_chr rfl]
    exact ttyDevice_eq_iff (ttyOpen env (ttyNum env path - 1)) d.fb
  · rw [openFb_ok h, openFb_ok h]
    refine view_eq_iff_of_rights d rfl rfl rfl rfl rfl ?_
    have hdevice : (if d.tty / 256 * 256 ≠ 0 then Device.tty (d.tty / 256 * 256) else .fb) = .fb ↔
        d.tty < 256 := by
      rw [← clearLow_eq_zero_iff]
      by_cases h0 : d.tty / 256 * 256 = 0
      · simp [h0]
      · simp [h0]
    rw [device_chr rfl, device_chr rfl]
    exact hdevice
  · rcases hstat : vfsStat env.root env.mounts env.allocated (some path) with e | ⟨mount, st⟩
    · rw [openObject, hstat] at h
      exact absurd h (Int.ne_of_lt (vfsStat_neg hstat))
    · rw [openObject_ok hstat h, openObject_ok hstat h]
      refine view_eq_iff_of_rights d rfl rfl rfl rfl rfl ?_
      have hdevice := objectDevice_eq_iff d path flags mount st
      constructor
      · intro hd r hr
        cases hr
        exact hdevice.mp hd
      · intro hd
        exact hdevice.mpr (hd _ rfl)

theorem openObject_ret (env : Env) (d : Descriptor) (path : List Char) (flags : ℕ) :
    (openObject env d path flags).1 = 0 ∨ (openObject env d path flags).1 < 0 := by
  have herror : -enotdir < 0 := by decide
  rcases hstat : vfsStat env.root env.mounts env.allocated (some path) with e | ⟨mount, st⟩
  · rw [openObject, hstat]
    exact .inr (vfsStat_neg hstat)
  · rw [openObject, hstat]
    dsimp only
    split_ifs
    · exact .inr herror
    · exact .inl rfl

theorem openSlot_ret (env : Env) (d : Descriptor) (path : List Char) (flags : ℕ) :
    (openSlot env d path flags).1 = 0 ∨ (openSlot env d path flags).1 < 0 := by
  have herror : -enoent < 0 := by decide
  rw [openSlot_eq, openTty, openFb]
  split_ifs
  · exact .inr herror
  · exact .inl rfl
  · exact .inr herror
  · exact .inl rfl
  · exact openObject_ret env _ path flags

/-- A descriptor that `process_open_file` returns is the slot it has filled. -/
theorem processOpenFile_ok {fd : ℕ → Descriptor} {i : ℕ}
    (h : (processOpenFile env fd path flags).1 = i) :
    (openSlot env (fd i) path flags).1 = 0 ∧
      (processOpenFile env fd path flags).2 i = (openSlot env (fd i) path flags).2 := by
  rw [processOpenFile] at h ⊢
  rcases hfind : (List.range fdCount).find? fun i => !(fd i).used with _ | j
  · rw [hfind] at h
    have hfull : -enomem < 0 := by decide
    have hi : (-enomem : ℤ) = i := h
    omega
  · rw [hfind] at h
    have hret := openSlot_ret env (fd j) path flags
    dsimp only at h ⊢
    split_ifs at h with hzero
    · obtain rfl : j = i := by omega
      exact ⟨hzero, Function.update_self _ _ _⟩
    · omega

end Opened

/-- After any history of opened and closed files, a file that is opened has the type, the
rights and the device that a slot never used before would give it, exactly when what was
left in the slot is clean. -/
theorem reuse_fresh_iff (os : List FdOp) (env : Env) (path : List Char) (flags i : ℕ)
    (h : (processOpenFile env (slots os) path flags).1 = i) :
    ((processOpenFile env (slots os) path flags).2 i).view = freshView env path flags ↔
      Clean env (slots os i) path flags := by
  obtain ⟨hzero, hslot⟩ := processOpenFile_ok h
  rw [hslot]
  exact openSlot_view_iff hzero

/-- The file systems of the example, with a file `/f`. -/
def exampleEnv : Env := ⟨some exampleRoot, [exampleMount], true, 0xc0500114, 0⟩

/-- `/f` is opened for reading in the first slot. -/
theorem reuse_fresh_first :
    (processOpenFile exampleEnv (slots []) ['/', 'f'] 0).1 = (0 : ℕ) ∧
    ((processOpenFile exampleEnv (slots []) ['/', 'f'] 0).2 0).view =
      freshView exampleEnv ['/', 'f'] 0 := by
  have hopen : (processOpenFile exampleEnv (slots []) ['/', 'f'] 0).1 = (0 : ℕ) := by decide
  refine ⟨hopen, (reuse_fresh_iff [] exampleEnv ['/', 'f'] 0 0 hopen).mpr ⟨?_, ?_, ?_⟩⟩
  · decide
  · decide
  · rw [DeviceClean, if_neg (by decide), if_neg (by decide)]
    exact fun r _ => ⟨fun _ => ⟨by decide, rfl⟩, fun _ _ => rfl⟩

/-- `/f` is opened for writing, closed, and opened for reading: the slot may still be
written to. -/
theorem reuse_keeps_rights :
    ¬ ∀ (os : List FdOp) (env : Env) (path : List Char) (flags i : ℕ),
      (processOpenFile env (slots os) path flags).1 = i →
      ((processOpenFile env (slots os) path flags).2 i).view = freshView env path flags := by
  intro h
  have hview := h [.open exampleEnv ['/', 'f'] 1, .close 0] exampleEnv ['/', 'f'] 0 0 (by decide)
  have hwrite := congrArg View.write hview
  exact absurd hwrite (by decide)

end DosKernel.Vfs
