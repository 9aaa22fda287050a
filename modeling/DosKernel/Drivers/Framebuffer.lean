import DosKernel.Fs.Copying

/-! The framebuffer as a device: the bytes on the screen and the backbuffer that shadows them.
`framebuffer_write` stores to both, `framebuffer_read` takes from the backbuffer. -/

namespace DosKernel

open Lib

/-- `framebuffer_t`, as far as the two transfers use it. -/
structure Framebuffer where
  addr : ℕ
  pitch : ℕ
  height : ℕ
  backbuffer : ℕ

/-- `size_t size = fb->pitch * fb->height`. -/
def Framebuffer.size (fb : Framebuffer) : ℕ := fb.pitch * fb.height % word32

def framebufferRead (fb : Framebuffer) (buf count offset : ℕ) (m : Memory) : ℤ × Memory :=
  if fb.size ≤ offset then (0, m)
  else
    let count := clip fb.size count offset
    (Int.bmod count word32, m.copy buf (fb.backbuffer + offset) count)

def framebufferWrite (fb : Framebuffer) (buf count offset : ℕ) (m : Memory) : ℤ × Memory :=
  if fb.size ≤ offset then (0, m)
  else
    let count := clip fb.size count offset
    (Int.bmod count word32,
      (m.copy (fb.backbuffer + offset) buf count).copy (fb.addr + offset) buf count)

namespace Framebuffer
variable {fb : Framebuffer} {m : Memory} {buf n offset x : ℕ}

theorem size_lt (fb : Framebuffer) : fb.size < word32 := Nat.mod_lt _ (by decide)

/-- The pixels and the backbuffer have addresses of their own. -/
structure Placed (fb : Framebuffer) : Prop where
  addr_le : fb.addr + fb.size ≤ space
  backbuffer_le : fb.backbuffer + fb.size ≤ space
  apart : fb.addr + fb.size ≤ fb.backbuffer ∨ fb.backbuffer + fb.size ≤ fb.addr

/-- An address of a pixel or of its shadow. -/
def Inside (fb : Framebuffer) (x : ℕ) : Prop :=
  (fb.addr ≤ x ∧ x < fb.addr + fb.size) ∨ (fb.backbuffer ≤ x ∧ x < fb.backbuffer + fb.size)

/-- A buffer of `n` bytes that is in memory, but not in the framebuffer. -/
structure Outside (fb : Framebuffer) (buf n : ℕ) : Prop where
  le : buf + n ≤ space
  apart : ∀ x, buf ≤ x → x < buf + n → ¬ fb.Inside x

theorem write_copies (hoffset : offset < fb.size) (hfits : offset + n ≤ fb.size) (m : Memory) :
    (framebufferWrite fb buf n offset m).2 =
      (m.copy (fb.backbuffer + offset) buf n).copy (fb.addr + offset) buf n := by
  have hwrap := hfits.trans_lt fb.size_lt
  rw [framebufferWrite, if_neg (by omega), clip_eq hoffset hwrap, Nat.min_eq_left (by omega)]

/-- A byte that is neither in the range of the pixels nor in that of their shadows. -/
theorem write_frame (hplaced : fb.Placed) (hfits : offset + n ≤ fb.size)
    (haddr : ¬ (fb.addr + offset ≤ x ∧ x < fb.addr + offset + n))
    (hback : ¬ (fb.backbuffer + offset ≤ x ∧ x < fb.backbuffer + offset + n)) :
    (framebufferWrite fb buf n offset m).2 x = m x := by
  obtain ⟨haddr_le, hback_le, -⟩ := hplaced
  rcases Nat.eq_zero_or_pos n with rfl | hn
  · rw [framebufferWrite]
    split_ifs with hsize
    · rfl
    · rw [clip_eq (by omega) (hfits.trans_lt fb.size_lt), Nat.zero_min]
      simp [Memory.copy, Memory.write]
  · rw [write_copies (by omega) hfits]
    exact (Memory.write_of_not_mem (by omega) haddr).trans
      (Memory.write_of_not_mem (by omega) hback)

/-- The bytes of the buffer become the pixels and their shadows. -/
theorem write_stores (hplaced : fb.Placed) (hfits : offset + n ≤ fb.size) (hbuf : fb.Outside buf n)
    {k : ℕ} (hk : k < n) :
    (framebufferWrite fb buf n offset m).2 (fb.addr + offset + k) = m (buf + k) ∧
      (framebufferWrite fb buf n offset m).2 (fb.backbuffer + offset + k) = m (buf + k) := by
  obtain ⟨haddr_le, hback_le, hapart⟩ := hplaced
  have hbuf_le := hbuf.le
  have hout := hbuf.apart (buf + k) (by omega) (by omega)
  rw [Inside] at hout
  have hmod : (buf + k) % space = buf + k := Nat.mod_eq_of_lt (by omega)
  -- the first copy
  have hfirst : m.copy (fb.backbuffer + offset) buf n (fb.backbuffer + offset + k) = m (buf + k) := by
    rw [Memory.copy, Memory.write_of_mem (by omega) (by omega) (by omega), Nat.add_sub_cancel_left,
      hmod]
  have hkept : m.copy (fb.backbuffer + offset) buf n (buf + k) = m (buf + k) :=
    Memory.write_of_not_mem (by omega) (by omega)
  rw [write_copies (by omega) hfits]
  constructor
  · rw [Memory.copy, Memory.write_of_mem (by omega) (by omega) (by omega), Nat.add_sub_cancel_left,
      hmod, hkept]
  · rw [← hfirst]
    exact Memory.write_of_not_mem (by omega) (by omega)

end Framebuffer

end DosKernel
