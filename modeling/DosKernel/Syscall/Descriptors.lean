import DosKernel.Drivers.Framebuffer
import DosKernel.Fs.Relative

/-! The system calls that take a file descriptor. `close`, `fstat`, `lseek` and `fchdir` look
at the number first, each in its own way; `read` and `write` index the array with whatever the
caller passed. Then `read` and `write` of the C library, which choose a device. -/

namespace DosKernel.Vfs

open Lib

def eisdir : ℤ := 21

/-! ### The code -/

/-- What the calls reach besides the descriptors; the rest of the machine is in `σ`. -/
structure Devices (σ : Type*) where
  ttyRead : (num : ℤ) → (buf size : ℕ) → σ → ℤ × σ
  ttyWrite : (num : ℤ) → (buf size : ℕ) → σ → ℤ × σ
  framebufferWrite : (buf size offset : ℕ) → σ → ℤ × σ
  fsRead : Option Mount → Stat → (buf size offset : ℕ) → σ → ℤ × σ
  fsWrite : Option Mount → Stat → (buf size offset : ℕ) → σ → ℤ × σ
  readdir : Option Mount → Stat → (index buf : ℕ) → σ → ℤ × σ
  storeStat : Stat → (statbuf : ℕ) → σ → σ
  physicalAddress : (buf : ℕ) → σ → ℕ

/-- `if (ret > 0) fd->offset += ret`. -/
def Descriptor.advance (fd : Descriptor) (ret : ℤ) : Descriptor :=
  if 0 < ret then { fd with offset := (fd.offset + ret.toNat) % word32 } else fd

section Calls
variable {σ : Type*} (dev : Devices σ)

/-- `read`. -/
def read (fd : Descriptor) (buf size : ℕ) (x : σ) : (ℤ × σ) × Descriptor :=
  if fd.read = false then ((-eacces, x), fd)
  else if fd.used = false then ((-ebadfd, x), fd)
  else
    match fd.device with
    | .tty num =>
      let r := dev.ttyRead num buf size x
      (r, fd.advance r.1)
    | .fb =>
      let r := dev.framebufferWrite buf size fd.offset x
      (r, fd.advance r.1)
    | .file mount st =>
      let r := dev.fsRead mount st buf size fd.offset x
      (r, fd.advance r.1)
    | .directory mount st =>
      let r := dev.readdir mount st fd.offset buf x
      (r, if 0 ≤ r.1 then { fd with offset := (fd.offset + 1) % word32 } else fd)
    | .nothing => ((-ebadfd, x), fd)

def write (fd : Descriptor) (buf size : ℕ) (x : σ) : (ℤ × σ) × Descriptor :=
  if fd.write = false then ((-eacces, x), fd)
  else if fd.used = false then ((-ebadfd, x), fd)
  else
    match fd.device with
    | .tty num =>
      let r := dev.ttyWrite num buf size x
      (r, fd.advance r.1)
    | .fb =>
      let r := dev.framebufferWrite buf size fd.offset x
      (r, fd.advance r.1)
    | .file mount st => (dev.fsWrite mount st buf size fd.offset x, fd)
    | .directory _ _ => ((-eisdir, x), fd)
    | .nothing => ((-ebadfd, x), fd)

/-- The `switch` of `syscall_lseek`: `SEEK_SET`, `SEEK_CUR`, `SEEK_END`. -/
def seek (f : Descriptor) (offset : BitVec 32) (whence : ℤ) : ℤ × Descriptor :=
  let moved := fun o : ℕ => (Int.bmod o word32, { f with offset := o })
  if whence = 0 then moved offset.toNat
  else if whence = 1 then moved ((f.offset + offset.toNat) % word32)
  else if whence = 2 then moved ((f.st.size + offset.toNat) % word32)
  else (-einval, f)

/-- `syscall_read`; `s i` is what lies at `p->fd[i]`, also outside the array. -/
def syscallRead (fd : BitVec 32) (buf count : ℕ) (x : σ) (s : ℤ → Descriptor) :
    (ℤ × σ) × (ℤ → Descriptor) :=
  let r := read dev (s fd.toInt) (dev.physicalAddress buf x) count x
  (r.1, Function.update s fd.toInt r.2)

def syscallWrite (fd : BitVec 32) (buf count : ℕ) (x : σ) (s : ℤ → Descriptor) :
    (ℤ × σ) × (ℤ → Descriptor) :=
  let r := write dev (s fd.toInt) (dev.physicalAddress buf x) count x
  (r.1, Function.update s fd.toInt r.2)

/-- `syscall_close`; the number is compared with a `size_t`. -/
def syscallClose (fd : BitVec 32) (s : ℤ → Descriptor) : ℤ × (ℤ → Descriptor) :=
  let r := processCloseFile (fun i : ℕ => s i) fd.toNat
  (r.1, fun i => if 0 ≤ i then r.2 i.toNat else s i)

def syscallFstat (fd : BitVec 32) (statbuf : ℕ) (x : σ) (s : ℤ → Descriptor) :
    (ℤ × σ) × (ℤ → Descriptor) :=
  if fdCount ≤ fd.toNat ∨ (s fd.toNat).used = false then ((-ebadfd, x), s)
  else if statbuf = 0 then ((0, x), s)
  else ((0, dev.storeStat (s fd.toNat).st (dev.physicalAddress statbuf x) x), s)

def syscallLseek (fd offset : BitVec 32) (whence : ℤ) (s : ℤ → Descriptor) :
    ℤ × (ℤ → Descriptor) :=
  if fdCount ≤ fd.toNat ∨ (s fd.toNat).used = false then (-ebadfd, s)
  else
    let r := seek (s fd.toNat) offset whence
    (r.1, Function.update s fd.toNat r.2)

/-- `syscall_fchdir` on an array of slots; the result has the new working directory. -/
def syscallFchdirAt (fd : BitVec 32) (cwdMount : Option Mount) (cwd : Stat) (s : ℤ → Descriptor) :
    (ℤ × Stat) × (ℤ → Descriptor) :=
  let r := syscallFchdir ⟨cwdMount, cwd, fun i : ℕ => s i⟩ fd.toInt
  ((r.1, r.2.cwd), s)

end Calls

/-! ### Calls that keep to open descriptors -/

/-- `p->fd[i]` is in the array and in use. -/
def IsOpen (s : ℤ → Descriptor) (i : ℤ) : Prop := 0 ≤ i ∧ i < fdCount ∧ (s i).used = true

instance (s : ℤ → Descriptor) (i : ℤ) : Decidable (IsOpen s i) :=
  inferInstanceAs (Decidable (_ ∧ _))

/-- The same slots are open, with the same descriptors in them. -/
def AgreeOnOpen (s s' : ℤ → Descriptor) : Prop :=
  ∀ i : ℤ, 0 ≤ i → i < fdCount → (s' i).used = (s i).used ∧ (IsOpen s i → s' i = s i)

/-- A call that looks at nothing but the open descriptors and the marks of the slots, and
changes nothing but open descriptors. -/
def KeepsToOpen {ρ : Type*} (call : (ℤ → Descriptor) → ρ × (ℤ → Descriptor))
    (s : ℤ → Descriptor) : Prop :=
  ∀ s', AgreeOnOpen s s' → (call s').1 = (call s).1 ∧
    ∀ i, (call s').2 i = if IsOpen s i then (call s).2 i else s' i

section Keeping
variable {ρ : Type*} {call : (ℤ → Descriptor) → ρ × (ℤ → Descriptor)} {s s' : ℤ → Descriptor}
  {i : ℤ} {g : Descriptor → ρ × Descriptor}

theorem AgreeOnOpen.isOpen_iff (h : AgreeOnOpen s s') : IsOpen s' i ↔ IsOpen s i := by
  rw [IsOpen, IsOpen]
  constructor
  · rintro ⟨hge, hlt, hused⟩
    exact ⟨hge, hlt, (h i hge hlt).1 ▸ hused⟩
  · rintro ⟨hge, hlt, hused⟩
    exact ⟨hge, hlt, (h i hge hlt).1.trans hused⟩

theorem AgreeOnOpen.eq (h : AgreeOnOpen s s') (hopen : IsOpen s i) : s' i = s i :=
  (h i hopen.1 hopen.2.1).2 hopen

/-- A slot that is not open may hold anything that is not marked as used. -/
theorem AgreeOnOpen.update (hopen : ¬ IsOpen s i) {d : Descriptor} (hd : d.used = false) :
    AgreeOnOpen s (Function.update s i d) := by
  intro j hge hlt
  by_cases hj : j = i
  · subst hj
    have hunused : (s j).used = false := by
      rw [← Bool.not_eq_true]
      exact fun hused => hopen ⟨hge, hlt, hused⟩
    rw [Function.update_self, hd, hunused]
    exact ⟨rfl, fun h => absurd h hopen⟩
  · rw [Function.update_of_ne hj]
    exact ⟨rfl, fun _ => rfl⟩

theorem keepsToOpen_of_isOpen (hcall : ∀ s, IsOpen s i →
    call s = ((g (s i)).1, Function.update s i (g (s i)).2)) (hopen : IsOpen s i) :
    KeepsToOpen call s := by
  intro s' hagree
  rw [hcall s hopen, hcall s' (hagree.isOpen_iff.mpr hopen), hagree.eq hopen]
  refine ⟨rfl, fun j => ?_⟩
  dsimp only
  by_cases hj : j = i
  · subst hj
    rw [if_pos hopen, Function.update_self, Function.update_self]
  · rw [Function.update_of_ne hj, Function.update_of_ne hj]
    split_ifs with hopen'
    · exact hagree.eq hopen'
    · rfl

/-- A call that fails unless its slot is open. -/
theorem keepsToOpen_of_checked {e : ρ} (hopen : ∀ s, IsOpen s i →
    call s = ((g (s i)).1, Function.update s i (g (s i)).2))
    (hclosed : ∀ s, ¬ IsOpen s i → call s = (e, s)) (s : ℤ → Descriptor) : KeepsToOpen call s := by
  by_cases h : IsOpen s i
  · exact keepsToOpen_of_isOpen hopen h
  · intro s' hagree
    rw [hclosed s h, hclosed s' fun h' => h (hagree.isOpen_iff.mp h')]
    refine ⟨rfl, fun j => ?_⟩
    dsimp only
    split_ifs with hj
    · exact hagree.eq hj
    · rfl

/-- A call without a check, if it can tell two descriptors that are not in use apart. -/
theorem keepsToOpen_unchecked_iff
    (hcall : ∀ s, call s = ((g (s i)).1, Function.update s i (g (s i)).2)) (d d' : Descriptor)
    (hd : d.used = false) (hd' : d'.used = false) (hne : (g d).1 ≠ (g d').1) :
    KeepsToOpen call s ↔ IsOpen s i := by
  refine ⟨fun hkeeps => ?_, fun hopen => keepsToOpen_of_isOpen (fun s _ => hcall s) hopen⟩
  by_contra hopen
  have hleft := (hkeeps _ (AgreeOnOpen.update hopen hd)).1
  have hright := (hkeeps _ (AgreeOnOpen.update hopen hd')).1
  rw [hcall, Function.update_self] at hleft hright
  exact hne (hleft.trans hright.symm)

end Keeping

theorem isOpen_toNat {s : ℤ → Descriptor} {fd : BitVec 32} :
    IsOpen s fd.toNat ↔ fd.toNat < fdCount ∧ (s fd.toNat).used = true := by
  rw [IsOpen, Int.ofNat_lt, and_iff_right (Int.natCast_nonneg _)]

/-- `syscall_fchdir` makes the same check on the signed number. -/
theorem syscallFchdirAt_eq (fd : BitVec 32) (cwdMount : Option Mount) (cwd : Stat)
    (s : ℤ → Descriptor) : syscallFchdirAt fd cwdMount cwd s =
      (if IsOpen s fd.toInt then (0, (s fd.toInt).st) else (-1, cwd), s) := by
  rw [syscallFchdirAt, syscallFchdir]
  by_cases hneg : fd.toInt < 0
  · rw [if_pos (.inl hneg), if_neg fun h => absurd h.1 (not_le.mpr hneg)]
  · have hnat : (fd.toInt.toNat : ℤ) = fd.toInt := Int.toNat_of_nonneg (not_lt.mp hneg)
    simp only [hnat]
    by_cases hopen : IsOpen s fd.toInt
    · rw [if_pos hopen, if_neg]
      rintro (h | h | h)
      · exact hneg h
      · exact absurd hopen.2.1 (not_lt.mpr h)
      · exact absurd (hopen.2.2.symm.trans h) (by decide)
    · rw [if_neg hopen, if_pos]
      by_contra h
      rw [not_or, not_or, not_le, Bool.not_eq_false] at h
      exact hopen ⟨not_lt.mp hneg, h.2⟩

/-- `close`, `fstat`, `lseek` and `fchdir` keep to the open descriptors, whatever the number is;
`read` and `write` do exactly if it is that of an open descriptor. -/
theorem descriptor_calls_keep_iff {σ : Type*} (dev : Devices σ) (fd offset : BitVec 32)
    (buf count : ℕ) (whence : ℤ) (cwdMount : Option Mount) (cwd : Stat) (x : σ)
    (s : ℤ → Descriptor) :
    (KeepsToOpen (syscallRead dev fd buf count x) s ↔ IsOpen s fd.toInt) ∧
    (KeepsToOpen (syscallWrite dev fd buf count x) s ↔ IsOpen s fd.toInt) ∧
    KeepsToOpen (syscallClose fd) s ∧ KeepsToOpen (syscallFstat dev fd buf x) s ∧
    KeepsToOpen (syscallLseek fd offset whence) s ∧
    KeepsToOpen (syscallFchdirAt fd cwdMount cwd) s := by
  refine ⟨?_, ?_, ?_, ?_, ?_, ?_⟩
  · exact keepsToOpen_unchecked_iff (g := fun d => read dev d (dev.physicalAddress buf x) count x)
      (fun _ => rfl) .zero { Descriptor.zero with read := true } rfl rfl
      (by simp [read, Descriptor.zero, eacces, ebadfd])
  · exact keepsToOpen_unchecked_iff (g := fun d => write dev d (dev.physicalAddress buf x) count x)
      (fun _ => rfl) .zero { Descriptor.zero with write := true } rfl rfl
      (by simp [write, Descriptor.zero, eacces, ebadfd])
  · refine keepsToOpen_of_checked (i := fd.toNat) (g := fun d => (0, { d with used := false }))
      (e := -ebadfd) (fun s h => ?_) (fun s h => ?_) s
    · rw [isOpen_toNat] at h
      rw [syscallClose, processCloseFile, if_pos h]
      refine Prod.ext rfl (funext fun j => ?_)
      dsimp only
      by_cases hj : j = fd.toNat
      · subst hj
        rw [if_pos (Int.natCast_nonneg _), Int.toNat_natCast, Function.update_self,
          Function.update_self]
      · rw [Function.update_of_ne hj]
        split_ifs with hge
        · rw [Function.update_of_ne (by omega), Int.toNat_of_nonneg hge]
        · rfl
    · rw [isOpen_toNat] at h
      rw [syscallClose, processCloseFile, if_neg h]
      refine Prod.ext rfl (funext fun j => ?_)
      dsimp only
      split_ifs with hj
      · rw [Int.toNat_of_nonneg hj]
      · rfl
  · refine keepsToOpen_of_checked (i := fd.toNat)
      (g := fun d => (if buf = 0 then (0, x)
        else (0, dev.storeStat d.st (dev.physicalAddress buf x) x), d))
      (e := (-ebadfd, x)) (fun s h => ?_) (fun s h => ?_) s
    · rw [isOpen_toNat] at h
      rw [syscallFstat, if_neg (by simp [h])]
      rw [Function.update_eq_self]
      split_ifs <;> rfl
    · rw [isOpen_toNat, not_and_or, Nat.not_lt, Bool.not_eq_true] at h
      rw [syscallFstat, if_pos h]
  · refine keepsToOpen_of_checked (i := fd.toNat) (g := fun d => seek d offset whence)
      (e := -ebadfd) (fun s h => ?_) (fun s h => ?_) s
    · rw [isOpen_toNat] at h
      rw [syscallLseek, if_neg (by simp [h])]
    · rw [isOpen_toNat, not_and_or, Nat.not_lt, Bool.not_eq_true] at h
      rw [syscallLseek, if_pos h]
  · refine keepsToOpen_of_checked (i := fd.toInt) (g := fun d => ((0, d.st), d))
      (e := (-1, cwd)) (fun s h => ?_) (fun s h => ?_) s
    · rw [syscallFchdirAt_eq, if_pos h, Function.update_eq_self]
    · rw [syscallFchdirAt_eq, if_neg h]

def noDevices : Devices Unit where
  ttyRead := fun _ _ _ x => (0, x)
  ttyWrite := fun _ _ _ x => (0, x)
  framebufferWrite := fun _ _ _ x => (0, x)
  fsRead := fun _ _ _ _ _ x => (0, x)
  fsWrite := fun _ _ _ _ _ x => (0, x)
  readdir := fun _ _ _ _ x => (0, x)
  storeStat := fun _ _ x => x
  physicalAddress := fun buf _ => buf

/-- `read(-1, ..)` looks in front of the array. -/
theorem read_out_of_bounds :
    ¬ ∀ (dev : Devices Unit) (fd : BitVec 32) (buf count : ℕ) (x : Unit) (s : ℤ → Descriptor),
      KeepsToOpen (syscallRead dev fd buf count x) s := by
  intro h
  have hagree : AgreeOnOpen (fun _ => Descriptor.zero) (Function.update (fun _ => Descriptor.zero) (-1)
      { Descriptor.zero with read := true }) :=
    AgreeOnOpen.update (fun hopen => absurd hopen.1 (by decide)) rfl
  have hread := (h noDevices (BitVec.ofInt 32 (-1)) 0 0 () (fun _ => .zero) _ hagree).1
  exact absurd (congrArg Prod.fst hread) (by decide)

/-! ### The framebuffer as a file -/

/-- Bytes are written to the framebuffer and read back from the same offset: the buffer then
holds them, and the read changes neither a pixel nor its shadow. -/
def RoundTrip (dev : Devices Memory) (fb : Framebuffer) (d : Descriptor) (src buf n : ℕ)
    (m : Memory) : Prop :=
  let w := write dev d src n m
  let r := read dev (seek w.2 (BitVec.ofNat 32 d.offset) 0).2 buf n w.1.2
  (∀ k < n, r.1.2 (buf + k) = m (src + k)) ∧ ∀ x, fb.Inside x → r.1.2 x = w.1.2 x

section Framebuffer
variable {dev : Devices Memory} {fb : Framebuffer} {d : Descriptor} {src buf n : ℕ}

theorem write_fb (hdev : dev.framebufferWrite = framebufferWrite fb) (hused : d.used = true)
    (hwrite : d.write = true) (hdevice : d.device = .fb) (m : Memory) :
    write dev d src n m = (framebufferWrite fb src n d.offset m,
      d.advance (framebufferWrite fb src n d.offset m).1) := by
  rw [Vfs.write, if_neg (by simp [hwrite]), if_neg (by simp [hused]), hdevice, hdev]

theorem read_fb (hdev : dev.framebufferWrite = framebufferWrite fb) (hused : d.used = true)
    (hread : d.read = true) (hdevice : d.device = .fb) (m : Memory) :
    (read dev d buf n m).1 = framebufferWrite fb buf n d.offset m := by
  rw [Vfs.read, if_neg (by simp [hread]), if_neg (by simp [hused]), hdevice, hdev]

/-- The descriptor after a transfer and a seek to where it began. -/
theorem seek_advance (ret : ℤ) (h : d.offset < word32) :
    (seek (d.advance ret) (BitVec.ofNat 32 d.offset) 0).2 = d := by
  have hmod : (BitVec.ofNat 32 d.offset).toNat = d.offset := by
    rw [BitVec.toNat_ofNat]
    exact Nat.mod_eq_of_lt h
  rw [seek, if_pos rfl, hmod, Descriptor.advance]
  split_ifs <;> rfl

/-- The round trip gives the bytes back exactly if the buffer held them before. -/
theorem framebuffer_round_trip_iff (hdev : dev.framebufferWrite = framebufferWrite fb)
    (hused : d.used = true) (hread : d.read = true) (hwrite : d.write = true)
    (hdevice : d.device = .fb) (hplaced : fb.Placed) (hfits : d.offset + n ≤ fb.size)
    (hsrc : fb.Outside src n) (hbuf : fb.Outside buf n) (m : Memory) :
    RoundTrip dev fb d src buf n m ↔ ∀ k < n, m (buf + k) = m (src + k) := by
  have hoffset : d.offset < word32 := (Nat.le_of_add_right_le hfits).trans_lt fb.size_lt
  rw [RoundTrip, write_fb hdev hused hwrite hdevice, seek_advance _ hoffset,
    read_fb hdev hused hread hdevice]
  dsimp only
  generalize hm : (framebufferWrite fb src n d.offset m).2 = m₁
  -- both transfers leave the buffer alone
  have hframe : ∀ (a : ℕ) (m : Memory), ∀ k < n,
      (framebufferWrite fb a n d.offset m).2 (buf + k) = m (buf + k) := by
    intro a m k hk
    have hout := hbuf.apart (buf + k) (by omega) (by omega)
    rw [Framebuffer.Inside] at hout
    exact Framebuffer.write_frame hplaced hfits (by omega) (by omega)
  have hkept : ∀ k < n, (framebufferWrite fb buf n d.offset m₁).2 (buf + k) = m (buf + k) :=
    fun k hk => by rw [hframe buf m₁ k hk, ← hm, hframe src m k hk]
  constructor
  · intro h k hk
    rw [← hkept k hk]
    exact h.1 k hk
  · intro hsame
    refine ⟨fun k hk => (hkept k hk).trans (hsame k hk), fun x _ => ?_⟩
    have hback : ∀ k < n, m₁ (buf + k) = m (src + k) := fun k hk => by
      rw [← hm, hframe src m k hk, hsame k hk]
    by_cases hpixel : fb.addr + d.offset ≤ x ∧ x < fb.addr + d.offset + n
    · obtain ⟨k, rfl⟩ := Nat.exists_eq_add_of_le hpixel.1
      have hk : k < n := by omega
      rw [(Framebuffer.write_stores hplaced hfits hbuf hk).1, hback k hk, ← hm,
        (Framebuffer.write_stores hplaced hfits hsrc hk).1]
    by_cases hshadow : fb.backbuffer + d.offset ≤ x ∧ x < fb.backbuffer + d.offset + n
    · obtain ⟨k, rfl⟩ := Nat.exists_eq_add_of_le hshadow.1
      have hk : k < n := by omega
      rw [(Framebuffer.write_stores hplaced hfits hbuf hk).2, hback k hk, ← hm,
        (Framebuffer.write_stores hplaced hfits hsrc hk).2]
    · exact Framebuffer.write_frame hplaced hfits hpixel hshadow

end Framebuffer

/-- The text screen, with its backbuffer at 1 MiB. -/
def textScreen : Framebuffer where
  addr := 0xb8000
  pitch := 160
  height := 25
  backbuffer := 0x100000

theorem textScreen_placed : textScreen.Placed := ⟨by decide, by decide, by decide⟩

theorem textScreen_outside {buf n : ℕ} (h : buf + n ≤ 0xb8000) : textScreen.Outside buf n := by
  refine ⟨h.trans (by decide), fun x _ hlt hinside => ?_⟩
  have hsides : (0xb8000 ≤ x ∧ x < 0xb8000 + 4000) ∨ (0x100000 ≤ x ∧ x < 0x100000 + 4000) := hinside
  omega

def screenDevices : Devices Memory where
  ttyRead := fun _ _ _ m => (0, m)
  ttyWrite := fun _ _ _ m => (0, m)
  framebufferWrite := framebufferWrite textScreen
  fsRead := fun _ _ _ _ _ m => (0, m)
  fsWrite := fun _ _ _ _ _ m => (0, m)
  readdir := fun _ _ _ _ m => (0, m)
  storeStat := fun _ _ m => m
  physicalAddress := fun buf _ => buf

/-- `/dev/fb0`, open for reading and writing. -/
def fb0 : Descriptor := { Descriptor.zero with
  used := true
  type := sIfchr
  fb := true
  read := true
  write := true }

theorem framebuffer_round_trip_of_same :
    RoundTrip screenDevices textScreen fb0 0x2000 0x3000 100 fun _ => 0x41 :=
  (framebuffer_round_trip_iff rfl rfl rfl rfl rfl textScreen_placed (by decide)
    (textScreen_outside (by decide)) (textScreen_outside (by decide)) _).mpr fun _ _ => rfl

/-- One byte is written; the buffer keeps the 0 that it held. -/
theorem framebuffer_round_trip_wrong :
    ¬ ∀ (dev : Devices Memory) (fb : Framebuffer) (d : Descriptor) (src buf n : ℕ) (m : Memory),
      dev.framebufferWrite = framebufferWrite fb → d.used = true → d.read = true →
      d.write = true → d.device = .fb → fb.Placed → d.offset + n ≤ fb.size → fb.Outside src n →
      fb.Outside buf n → RoundTrip dev fb d src buf n m := by
  intro h
  have htrip := h screenDevices textScreen fb0 0x2000 0x3000 1
    (fun x => if x = 0x2000 then 0x41 else 0) rfl rfl rfl rfl rfl textScreen_placed (by decide)
    (textScreen_outside (by decide)) (textScreen_outside (by decide))
  exact absurd (htrip.1 0 (by decide)) (by decide +kernel)

end DosKernel.Vfs
