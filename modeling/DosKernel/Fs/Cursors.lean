import DosKernel.Fs.Sequential
import DosKernel.Lib.Simulation
import DosKernel.Syscall.Descriptors

/-! Several files that are open at once. A process reads from them and moves in them with `lseek`,
in any order; every descriptor is a cursor in its own file, which no call on another one moves. -/

namespace DosKernel.Vfs

open Lib

inductive FileCall
  | read (fd : BitVec 32) (buf count : ℕ)
  | lseek (fd offset : BitVec 32) (whence : ℤ)
  deriving DecidableEq

/-- The machine, the descriptors of a process, and what its calls have returned. -/
structure FileState (σ : Type*) where
  machine : σ
  slots : ℤ → Descriptor
  results : List ℤ

section Code
variable {σ : Type*} (dev : Devices σ)

def fileStep (s : FileState σ) : FileCall → Option (FileState σ)
  | .read fd buf count =>
    let r := syscallRead dev fd buf count s.machine s.slots
    some ⟨r.1.2, r.2, s.results ++ [r.1.1]⟩
  | .lseek fd offset whence =>
    let r := syscallLseek fd offset whence s.slots
    some ⟨s.machine, r.2, s.results ++ [r.1]⟩

end Code

/-! ### Cursors -/

/-- The bytes that were delivered, a position in every file, and what the calls have returned. -/
structure Cursors where
  delivered : List UInt8
  position : ℤ → ℕ
  results : List ℤ

/-- Where `lseek` goes. -/
def Cursors.target (file : OpenFile) (position : ℕ) (offset : BitVec 32) (whence : ℤ) : Option ℕ :=
  if whence = 0 then some offset.toNat
  else if whence = 1 then some ((position + offset.toNat) % word32)
  else if whence = 2 then some ((file.size + offset.toNat) % word32)
  else none

/-- What a read delivers. -/
def Cursors.ahead (file : OpenFile) (position count : ℕ) : List UInt8 :=
  slice file.byteAt position (min count (file.size - position))

def cursorStep (files : ℤ → Option OpenFile) (c : Cursors) : FileCall → Option Cursors
  | .read fd _ count =>
    (files fd.toInt).map fun file =>
      let bytes := Cursors.ahead file (c.position fd.toInt) count
      { delivered := c.delivered ++ bytes
        position := Function.update c.position fd.toInt (c.position fd.toInt + bytes.length)
        results := c.results ++ [(bytes.length : ℤ)] }
  | .lseek fd offset whence =>
    match files fd.toNat with
    | none => some { c with results := c.results ++ [-ebadfd] }
    | some file =>
      match Cursors.target file (c.position fd.toNat) offset whence with
      | none => some { c with results := c.results ++ [-einval] }
      | some position => some { c with
          position := Function.update c.position fd.toNat position
          results := c.results ++ [Int.bmod position word32] }

/-! ### Descriptors are cursors -/

section Following
variable {σ : Type*} {dev : Devices σ} {out : σ → List UInt8} {files : ℤ → Option OpenFile}
  {s s' : FileState σ} {c : Cursors} {file : OpenFile} {d : Descriptor}

/-- `fs->read` of a mount is that of the file, with anything behind its buffer; the bytes that it
returns come to the output. -/
def Serves (dev : Devices σ) (out : σ → List UInt8) (mount : Option Mount) (st : Stat)
    (file : OpenFile) : Prop :=
  ∀ buf count offset x, ∃ t, (dev.fsRead mount st buf count offset x).1 =
      (file.readBytes t count offset).1 ∧
    out (dev.fsRead mount st buf count offset x).2 = out x ++ returned (file.readBytes t count offset)

/-- A descriptor is open for reading on a file. -/
structure OpenOn (dev : Devices σ) (out : σ → List UInt8) (d : Descriptor) (file : OpenFile) :
    Prop where
  used : d.used = true
  readable : d.read = true
  device : d.device = .file d.mount d.st
  size : d.st.size = file.size
  serves : Serves dev out d.mount d.st file
  supported : file.Supported
  fit : file.AddressesFit

/-- The open descriptors are those of the files, at the places of the cursors. -/
structure Follows (dev : Devices σ) (out : σ → List UInt8) (files : ℤ → Option OpenFile)
    (s : FileState σ) (c : Cursors) : Prop where
  range : ∀ i, files i ≠ none → 0 ≤ i ∧ i < fdCount
  closed : ∀ i, files i = none → ¬ IsOpen s.slots i
  opened : ∀ i file, files i = some file → OpenOn dev out (s.slots i) file
  position : ∀ i, files i ≠ none → (s.slots i).offset = c.position i
  delivered : out s.machine = c.delivered
  results : s.results = c.results

theorem OpenOn.device_eq (h : OpenOn dev out d file) (offset : ℕ) :
    OpenOn dev out { d with offset := offset } file where
  used := h.used
  readable := h.readable
  device := h.device
  size := h.size
  serves := h.serves
  supported := h.supported
  fit := h.fit

theorem returned_ahead (h : file.Supported) (ha : file.AddressesFit) (t : ℕ → UInt8) {n o : ℕ}
    (hn : Asked n) (hfit : o < file.size → ReadFits file.size file.blockSize o n) :
    returned (file.readBytes t n o) = Cursors.ahead file o n ∧
      (file.readBytes t n o).1 = (Cursors.ahead file o n).length := by
  have hreader := OpenFile.reader h ha
  rcases Nat.lt_or_ge o file.size with ho | ho
  · have hfits := hreader.fit t n o hn ho (hfit ho)
    have hlength := returned_length (file.readBytes_toNat_le t n o)
    have hasked := hn.1
    rw [hfits, slice_length] at hlength
    refine ⟨hfits, ?_⟩
    rw [Cursors.ahead, slice_length]
    omega
  · have hpast := hreader.past t n o ho
    have hzero : Cursors.ahead file o n = [] := by
      rw [Cursors.ahead, Nat.sub_eq_zero_of_le ho, Nat.min_zero, slice_zero]
    have hread : (file.readBytes t n o).1 = 0 := by
      cases file <;> exact congrArg Prod.fst (if_pos ho)
    rw [hzero, hread]
    exact ⟨hpast, rfl⟩

/-- `lseek` goes to the target, or refuses. -/
theorem seek_eq (hsize : d.st.size = file.size) {offset : BitVec 32} {whence : ℤ} :
    seek d offset whence =
      match Cursors.target file d.offset offset whence with
      | none => (-einval, d)
      | some o => (Int.bmod o word32, { d with offset := o }) := by
  rw [seek, hsize]
  unfold Cursors.target
  split_ifs <;> rfl

theorem OpenOn.read_eq (h : OpenOn dev out d file) {count : ℕ} (hn : Asked count)
    (hfit : d.offset < file.size → ReadFits file.size file.blockSize d.offset count) (buf : ℕ) (x : σ) :
    (read dev d buf count x).1.1 = (Cursors.ahead file d.offset count).length ∧
    out (read dev d buf count x).1.2 = out x ++ Cursors.ahead file d.offset count ∧
    (read dev d buf count x).2 =
      { d with offset := d.offset + (Cursors.ahead file d.offset count).length } := by
  obtain ⟨t, hret, hout⟩ := h.serves buf count d.offset x
  obtain ⟨hbytes, hlength⟩ := returned_ahead h.supported h.fit t hn hfit
  rw [hbytes] at hout
  rw [hlength] at hret
  have hread : read dev d buf count x = (dev.fsRead d.mount d.st buf count d.offset x,
      d.advance (dev.fsRead d.mount d.st buf count d.offset x).1) := by
    rw [read, if_neg (by simp [h.readable]), if_neg (by simp [h.used]), h.device]
  rw [hread]
  refine ⟨hret, hout, ?_⟩
  dsimp only
  rw [hret, Descriptor.advance]
  split_ifs with hpos
  · -- the end of what is read lies in the file
    have hsize := file.size_lt
    have hle : d.offset + (Cursors.ahead file d.offset count).length ≤ file.size := by
      have hlen : 0 < (Cursors.ahead file d.offset count).length := by exact_mod_cast hpos
      rw [Cursors.ahead, slice_length] at hlen ⊢
      omega
    rw [Int.toNat_natCast, Nat.mod_eq_of_lt (by omega)]
  · have hlen : (Cursors.ahead file d.offset count).length = 0 := by omega
    rw [hlen, Nat.add_zero]

/-- A call moves the cursor of one descriptor and returns something. -/
theorem Follows.moved {i : ℤ} (h : Follows dev out files s c) (hfile : files i = some file)
    {x : σ} {bytes : List UInt8} (hout : out x = out s.machine ++ bytes) (o : ℕ) (ret : ℤ) :
    Follows dev out files
      ⟨x, Function.update s.slots i { s.slots i with offset := o }, s.results ++ [ret]⟩
      ⟨c.delivered ++ bytes, Function.update c.position i o, c.results ++ [ret]⟩ where
  range := h.range
  closed j hj := by
    have hne : j ≠ i := fun heq => by
      rw [heq, hfile] at hj
      cases hj
    have hslot : Function.update s.slots i { s.slots i with offset := o } j = s.slots j :=
      Function.update_of_ne hne _ _
    simp only [IsOpen, hslot]
    exact h.closed j hj
  opened j f hj := by
    dsimp only
    by_cases heq : j = i
    · subst heq
      obtain rfl := Option.some.inj (hfile.symm.trans hj)
      rw [Function.update_self]
      exact (h.opened j _ hj).device_eq o
    · rw [Function.update_of_ne heq]
      exact h.opened j f hj
  position j hj := by
    dsimp only
    by_cases heq : j = i
    · subst heq
      rw [Function.update_self, Function.update_self]
    · rw [Function.update_of_ne heq, Function.update_of_ne heq]
      exact h.position j hj
  delivered := by rw [hout, h.delivered]
  results := by rw [h.results]

theorem Follows.read {fd : BitVec 32} {buf count : ℕ} (h : Follows dev out files s c)
    (hfile : files fd.toInt = some file) (hn : Asked count)
    (hfit : (s.slots fd.toInt).offset < file.size →
      ReadFits file.size file.blockSize (s.slots fd.toInt).offset count)
    (hs : fileStep dev s (.read fd buf count) = some s') :
    ∃ c', cursorStep files c (.read fd buf count) = some c' ∧ Follows dev out files s' c' := by
  obtain rfl := Option.some.inj hs
  have hpos := h.position fd.toInt (by rw [hfile]; exact Option.some_ne_none _)
  obtain ⟨hret, hout, hslot⟩ :=
    (h.opened _ _ hfile).read_eq hn hfit (dev.physicalAddress buf s.machine) s.machine
  refine ⟨_, congrArg (Option.map _) hfile, ?_⟩
  simp only [syscallRead]
  rw [hslot, hret, hpos]
  rw [hpos] at hout
  exact h.moved hfile hout _ _

theorem Follows.lseek {fd offset : BitVec 32} {whence : ℤ} (h : Follows dev out files s c)
    (hs : fileStep dev s (.lseek fd offset whence) = some s') :
    ∃ c', cursorStep files c (.lseek fd offset whence) = some c' ∧ Follows dev out files s' c' := by
  obtain rfl := Option.some.inj hs
  rw [cursorStep]
  cases hfile : files fd.toNat with
  | none =>
    have hclosed := h.closed _ hfile
    rw [isOpen_toNat, not_and_or, not_lt, Bool.not_eq_true] at hclosed
    refine ⟨_, rfl, ?_⟩
    rw [syscallLseek, if_pos hclosed]
    exact ⟨h.range, h.closed, h.opened, h.position, h.delivered, by rw [h.results]⟩
  | some file =>
    have hne : files fd.toNat ≠ none := by
      rw [hfile]
      exact Option.some_ne_none _
    have hopened := h.opened _ _ hfile
    have hpos := h.position _ hne
    have hopen : ¬ (fdCount ≤ fd.toNat ∨ (s.slots fd.toNat).used = false) := by
      rw [not_or, not_le, Bool.not_eq_false]
      exact ⟨by exact_mod_cast (h.range _ hne).2, hopened.used⟩
    have hmoved : ∀ o : ℕ, Follows dev out files
        ⟨s.machine, Function.update s.slots fd.toNat { s.slots fd.toNat with offset := o },
          s.results ++ [Int.bmod o word32]⟩
        ⟨c.delivered, Function.update c.position fd.toNat o, c.results ++ [Int.bmod o word32]⟩ := by
      intro o
      have hsame : out s.machine = out s.machine ++ [] := (List.append_nil _).symm
      have hnext := h.moved hfile hsame o (Int.bmod o word32)
      rwa [List.append_nil] at hnext
    rw [syscallLseek, if_neg hopen, seek_eq hopened.size, hpos]
    dsimp only
    cases Cursors.target file (c.position fd.toNat) offset whence with
    | none =>
      refine ⟨_, rfl, ?_⟩
      dsimp only
      rw [Function.update_eq_self]
      exact ⟨h.range, h.closed, h.opened, h.position, h.delivered, by rw [h.results]⟩
    | some o =>
      refine ⟨_, rfl, ?_⟩
      dsimp only
      exact hmoved o

end Following

end DosKernel.Vfs
