import DosKernel.Lib.Loop
import DosKernel.Lib.Memory
import DosKernel.Libc.Printf

/-! Blocks of memory. `memcpy` copies from the first byte on, in chunks whose sizes depend on the
processor; a chunk is read as a whole before it is stored. `memmove` leaves the copy to it when the
destination comes first and copies from the last byte on otherwise. -/

namespace DosKernel.Libc.Blocks

open Lib

/-! ### The code -/

/-- The bits of `cpuinfo.edx` that `memcpy` looks at. -/
structure Features where
  sse : Bool
  mmx : Bool

/-- The variables of `memcpy`, with the memory. -/
structure Copying where
  mem : Memory
  destination : ℕ
  source : ℕ
  n : ℕ

/-- One of its loops, with chunks of `c` bytes. -/
def Copying.chunks (c : ℕ) (s : Copying) : Copying where
  mem := forRange (fun i m => m.copy (s.destination + c * i) (s.source + c * i) c) (s.n / c) 0 s.mem
  destination := s.destination + c * (s.n / c)
  source := s.source + c * (s.n / c)
  n := s.n - c * (s.n / c)

def memcpy (cpu : Features) (m : Memory) (destination source n : ℕ) : Memory :=
  let s : Copying := ⟨m, destination, source, n⟩
  let s := if cpu.sse then s.chunks 16 else s
  let s := if cpu.mmx then s.chunks 8 else s
  (((s.chunks 4).chunks 2).chunks 1).mem

/-- `memmove`. The index of the backward loop is an `int` that starts with `n - 1`. -/
def memmove (cpu : Features) (m : Memory) (dest source n : ℕ) : Memory :=
  if dest < source then memcpy cpu m dest source n
  else Libc.memmove m dest source (((n : ℤ) - 1).bmod word32 + 1).toNat

/-- The bytes of the source stand in the destination, and all others are as they were. -/
structure Moved (m m' : Memory) (dest source n : ℕ) : Prop where
  moved : ∀ i < n, m' (dest + i) = m (source + i)
  kept : ∀ a, ¬ (dest ≤ a ∧ a < dest + n) → m' a = m a

/-! ### Chunks -/

section Chunks
variable {m : Memory} {dest source n c j a : ℕ} {s : Copying}

/-- A chunk behind those that are copied already: no byte of it was overwritten. -/
theorem copy_append (hdest : dest + (j + c) ≤ space) (hsource : source + (j + c) ≤ space)
    (h : dest ≤ source ∨ source + (j + c) ≤ dest) :
    (m.copy dest source j).copy (dest + j) (source + j) c = m.copy dest source (j + c) := by
  unfold Memory.copy
  rw [← Memory.write_append hdest]
  apply Memory.write_congr
  intro k hk
  rw [Nat.add_assoc, Nat.mod_eq_of_lt (by omega), Memory.write_of_not_mem (by omega) (by omega)]

/-- The loops have copied some of the bytes, from the first one on. -/
structure Copying.Begun (I : ℕ → Memory → Prop) (dest source n j : ℕ) (s : Copying) : Prop where
  le : j ≤ n
  mem : I j s.mem
  destination : s.destination = dest + j
  source : s.source = source + j
  n : s.n = n - j

theorem Copying.Begun.chunks {I : ℕ → Memory → Prop} (h : s.Begun I dest source n j)
    (hstep : ∀ j c m, j + c ≤ n → I j m → I (j + c) (m.copy (dest + j) (source + j) c)) (c : ℕ) :
    (s.chunks c).Begun I dest source n (j + c * ((n - j) / c)) := by
  have hall : c * ((n - j) / c) ≤ n - j := Nat.mul_div_le _ _
  have hle := h.le
  have hend : (s.chunks c).mem = forRange
      (fun i m => m.copy (dest + j + c * i) (source + j + c * i) c) ((n - j) / c) 0 s.mem := by
    unfold Copying.chunks
    dsimp only
    rw [h.destination, h.source, h.n]
  refine ⟨by omega, ?_, ?_, ?_, ?_⟩
  · rw [hend]
    have hloop : I (j + c * (0 + (n - j) / c)) (forRange
        (fun i m => m.copy (dest + j + c * i) (source + j + c * i) c) ((n - j) / c) 0 s.mem) := by
      apply forRange_invariant (I := fun i m => I (j + c * i) m)
      · intro i m _ hi hm
        have hchunk : c * (i + 1) ≤ c * ((n - j) / c) := Nat.mul_le_mul_left c (by omega)
        rw [Nat.mul_succ] at hchunk ⊢
        rw [Nat.add_assoc dest, Nat.add_assoc source, ← Nat.add_assoc j]
        exact hstep _ c m (by omega) hm
      · exact h.mem
    rwa [Nat.zero_add] at hloop
  · rw [Copying.chunks, h.destination, h.n, Nat.add_assoc]
  · rw [Copying.chunks, h.source, h.n, Nat.add_assoc]
  · rw [Copying.chunks, h.n, Nat.sub_sub]

/-- What every chunk preserves holds behind `memcpy`. -/
theorem memcpy_invariant (cpu : Features) {I : ℕ → Memory → Prop}
    (hstep : ∀ j c m, j + c ≤ n → I j m → I (j + c) (m.copy (dest + j) (source + j) c))
    (hstart : I 0 m) : I n (memcpy cpu m dest source n) := by
  have hloop := fun c {s j} (h : Copying.Begun I dest source n j s) => h.chunks hstep c
  have hbegun : Copying.Begun I dest source n 0 ⟨m, dest, source, n⟩ :=
    ⟨Nat.zero_le n, hstart, rfl, rfl, rfl⟩
  obtain ⟨s, j, hs, hmem⟩ : ∃ s j, Copying.Begun I dest source n j s ∧
      memcpy cpu m dest source n = (((s.chunks 4).chunks 2).chunks 1).mem := by
    obtain ⟨sse, mmx⟩ := cpu
    cases sse with
    | false =>
      cases mmx with
      | false => exact ⟨_, _, hbegun, rfl⟩
      | true => exact ⟨_, _, hloop 8 hbegun, rfl⟩
    | true =>
      cases mmx with
      | false => exact ⟨_, _, hloop 16 hbegun, rfl⟩
      | true => exact ⟨_, _, hloop 8 (hloop 16 hbegun), rfl⟩
  have hwords := hloop 2 (hloop 4 hs)
  have hbytes := hloop 1 hwords
  -- the last loop leaves nothing to copy
  have hlast := hwords.le
  rw [Nat.one_mul, Nat.div_one, Nat.add_sub_cancel' hlast] at hbytes
  rw [hmem]
  exact hbytes.mem

theorem copy_moved (hdest : dest + n ≤ space) (hsource : source + n ≤ space) :
    Moved m (m.copy dest source n) dest source n := by
  constructor
  · intro i hi
    rw [Memory.copy, Memory.write_of_mem hdest (by omega) (by omega), Nat.add_sub_cancel_left,
      Nat.mod_eq_of_lt (by omega)]
  · intro a ha
    exact Memory.write_of_not_mem hdest ha

end Chunks

/-! ### The functions -/

section Functions
variable {m : Memory} {dest source n : ℕ}

/-- In whatever chunks, `memcpy` is one copy, unless the destination begins inside the source. -/
theorem memcpy_eq (cpu : Features) (hdest : dest + n ≤ space) (hsource : source + n ≤ space)
    (hsafe : dest ≤ source ∨ source + n ≤ dest) :
    memcpy cpu m dest source n = m.copy dest source n := by
  apply memcpy_invariant cpu (I := fun j m' => m' = m.copy dest source j)
  · rintro j c _ hle rfl
    exact copy_append (by omega) (by omega) (by omega)
  · exact (Memory.write_zero m dest _).symm

/-- Nothing outside the destination is changed, however the ranges lie. -/
theorem memcpy_kept (cpu : Features) (m : Memory) (source : ℕ) (hdest : dest + n ≤ space) {a : ℕ}
    (ha : ¬ (dest ≤ a ∧ a < dest + n)) : memcpy cpu m dest source n a = m a := by
  apply memcpy_invariant cpu (I := fun _ m' => m' a = m a)
  · intro j c m' hle hkept
    rw [Memory.copy, Memory.write_of_not_mem (by omega) (by omega), hkept]
  · rfl

/-- The bytes that the index of the backward loop comes past. -/
theorem backward_count (hn : n < 2 ^ 31) : (((n : ℤ) - 1).bmod word32 + 1).toNat = n := by
  have hword : (word32 : ℤ) = 4294967296 := rfl
  rw [Int.bmod_eq_of_le (by omega) (by omega)]
  omega

theorem memmove_moved (cpu : Features) (hn : n < 2 ^ 31) (hdest : dest + n ≤ space)
    (hsource : source + n ≤ space) : Moved m (memmove cpu m dest source n) dest source n := by
  unfold memmove
  split_ifs with hlt
  · rw [memcpy_eq cpu hdest hsource (.inl hlt.le)]
    exact copy_moved hdest hsource
  · rw [backward_count hn, memmove_eq (Nat.not_lt.mp hlt)]
    constructor
    · intro i hi
      rw [if_pos ⟨by omega, by omega⟩, Nat.add_sub_cancel_left]
    · intro a ha
      exact if_neg ha

/-- `memmove` moves the bytes of all ranges, and `memcpy` those of ranges that do not overlap or
whose destination comes first. -/
theorem memory_moves (cpu : Features) (m : Memory) {dest source n : ℕ} (hn : n < 2 ^ 31)
    (hdest : dest + n ≤ space) (hsource : source + n ≤ space) :
    Moved m (memmove cpu m dest source n) dest source n ∧
      ((dest + n ≤ source ∨ source + n ≤ dest) ∨ dest < source →
        Moved m (memcpy cpu m dest source n) dest source n) := by
  refine ⟨memmove_moved cpu hn hdest hsource, fun hsafe => ?_⟩
  rw [memcpy_eq cpu hdest hsource (by omega)]
  exact copy_moved hdest hsource

/-- Twenty bytes, three bytes further on and three bytes back. -/
theorem memory_moves_overlapping :
    Moved (fun a => UInt8.ofNat a) (memmove ⟨true, true⟩ (fun a => UInt8.ofNat a) 0x1003 0x1000 20)
      0x1003 0x1000 20 ∧
    Moved (fun a => UInt8.ofNat a) (memcpy ⟨true, true⟩ (fun a => UInt8.ofNat a) 0x1000 0x1003 20)
      0x1000 0x1003 20 :=
  have forward := memory_moves ⟨true, true⟩ (fun a => UInt8.ofNat a) (n := 20) (by decide)
    (by decide : 0x1003 + 20 ≤ space) (by decide : 0x1000 + 20 ≤ space)
  have back := memory_moves ⟨true, true⟩ (fun a => UInt8.ofNat a) (n := 20) (by decide)
    (by decide : 0x1000 + 20 ≤ space) (by decide : 0x1003 + 20 ≤ space)
  ⟨forward.1, back.2 (.inr (by decide))⟩

end Functions

end DosKernel.Libc.Blocks
