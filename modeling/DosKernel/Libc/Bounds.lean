import DosKernel.Libc.Blocks
import DosKernel.Paging.Copying

/-! Bounded copies of strings. `strncpy` and `mmu_strncpy` copy the string as far as the bound allows,
fill the rest of the array with zeros and put one more zero behind it. -/

namespace DosKernel.Libc.Blocks

open Lib

def strlen (m : Memory) (str : ℕ) : ℕ := CString.strlen fun i => m ((str + i) % space)

def strncpy (cpu : Features) (m : Memory) (destination source n : ℕ) : Memory :=
  let len := strlen m source
  let m := memcpy cpu m destination source (if len < n then len else n)
  let m := forRange (fun i m => m.store ((destination + i) % word32) 1 0) (n - len) len m
  m.store ((destination + n) % word32) 1 0

/-- Only the `n` bytes from `dst` on may differ. -/
def Keeps (m m' : Memory) (dst n : ℕ) : Prop := ∀ a, ¬ (dst ≤ a ∧ a < dst + n) → m' a = m a

section Bounds
variable {m m' : Memory} {dst n len a c : ℕ}

theorem Keeps.trans {m'' : Memory} (h : Keeps m m' dst n) (h' : Keeps m' m'' dst n) :
    Keeps m m'' dst n := fun a ha => (h' a ha).trans (h a ha)

theorem Keeps.mono {dst' n' : ℕ} (h : Keeps m m' dst' n') (hdst : dst ≤ dst')
    (hn : dst' + n' ≤ dst + n) : Keeps m m' dst n := fun a ha => h a (by omega)

theorem store_keeps (m : Memory) (v : ℕ) (ha : a + c ≤ space) : Keeps m (m.store a c v) a c :=
  fun _ hx => Memory.write_of_not_mem ha hx

/-- The loop that fills the array stays inside. -/
theorem fill_keeps (m : Memory) (hdst : dst + n ≤ space) (len : ℕ) :
    Keeps m (forRange (fun i m => m.store ((dst + i) % word32) 1 0) (n - len) len m) dst n := by
  apply forRange_invariant (I := fun _ m' => Keeps m m' dst n)
  · intro i m' hi hi' hkeeps
    have hmod : (dst + i) % word32 = dst + i := Nat.mod_eq_of_lt (by rw [word32]; rw [space] at hdst; omega)
    rw [hmod]
    exact hkeeps.trans ((store_keeps m' 0 (by omega)).mono (by omega) (by omega))
  · exact fun a _ => rfl

/-- The zero behind the array is the only byte that a bounded copy may change outside of it. -/
theorem keeps_terminated_iff (h : Keeps m m' dst n) (hdst : dst + n ≤ space) (hn : n < space) :
    Keeps m (m'.store ((dst + n) % word32) 1 0) dst n ↔ m ((dst + n) % space) = 0 := by
  have hlt : (dst + n) % space < space := Nat.mod_lt _ (by decide)
  have hout : ¬ (dst ≤ (dst + n) % space ∧ (dst + n) % space < dst + n) := by
    rw [space] at *
    omega
  have hzero : m'.store ((dst + n) % word32) 1 0 ((dst + n) % space) = 0 := by
    rw [Memory.store]
    exact (Memory.write_of_mem (Nat.succ_le_of_lt hlt) le_rfl (Nat.lt_succ_self _)).trans (by simp)
  constructor
  · intro hkeeps
    rw [← hkeeps _ hout, hzero]
  · intro hbyte x hx
    by_cases hlast : x = (dst + n) % space
    · rw [hlast, hzero, hbyte]
    · have hother : ¬ ((dst + n) % word32 ≤ x ∧ x < (dst + n) % word32 + 1) := by
        change ¬ ((dst + n) % space ≤ x ∧ x < (dst + n) % space + 1)
        omega
      exact (store_keeps m' 0 (Nat.succ_le_of_lt hlt) x hother).trans (h x hx)

/-! ### `strncpy` -/

/-- Everything but the last store of `strncpy` stays inside the array. -/
theorem strncpy_eq (cpu : Features) (m : Memory) (source : ℕ) (hdst : dst + n ≤ space) :
    ∃ m', Keeps m m' dst n ∧ strncpy cpu m dst source n = m'.store ((dst + n) % word32) 1 0 := by
  refine ⟨_, ?_, rfl⟩
  have hlen : (if strlen m source < n then strlen m source else n) ≤ n := by
    split_ifs <;> omega
  have hcopied : Keeps m (memcpy cpu m dst source
      (if strlen m source < n then strlen m source else n)) dst n :=
    fun a ha => memcpy_kept cpu m source (by omega) (by omega)
  exact hcopied.trans (fill_keeps _ hdst _)

/-! ### `mmu_strncpy` -/

theorem copyLoop_keeps (m : Memory) (pdt v : ℕ) {l : ℕ} (hdst : dst + c * l ≤ space) :
    Keeps m (copyLoop c m pdt v dst l) dst (c * l) := by
  apply forRange_invariant (I := fun _ m' => Keeps m m' dst (c * l))
  · intro i m' _ hi hkeeps
    have hle : c * (i + 1) ≤ c * l := Nat.mul_le_mul_left c (by omega)
    rw [Nat.mul_succ] at hle
    rcases Nat.eq_zero_or_pos c with rfl | hc
    · rw [Memory.store, Memory.write_zero]
      exact hkeeps
    · have hmod : (dst + c * i) % word32 = dst + c * i :=
        Nat.mod_eq_of_lt (by rw [word32]; rw [space] at hdst; omega)
      rw [hmod]
      exact hkeeps.trans ((store_keeps m' _ (by omega)).mono (by omega) (by omega))
  · exact fun a _ => rfl

theorem mmuMemcpy_keeps (m : Memory) (pdt v : ℕ) (hdst : dst + n ≤ space) :
    Keeps m (mmuMemcpy m pdt v dst n) dst n := by
  unfold mmuMemcpy
  dsimp only
  generalize hwords : n / 4 = words
  generalize hpairs : (n - 4 * words) / 2 = pairs
  rw [Nat.mod_add_mod, Nat.mod_add_mod, copyLoop_mod, copyLoop_mod]
  have hfirst := copyLoop_keeps m pdt v (c := 4) (show dst + 4 * words ≤ space by omega)
  have hsecond := copyLoop_keeps (copyLoop 4 m pdt v dst words) pdt (v + 4 * words) (c := 2)
    (show dst + 4 * words + 2 * pairs ≤ space by omega)
  have hlast := copyLoop_keeps
    (copyLoop 2 (copyLoop 4 m pdt v dst words) pdt (v + 4 * words) (dst + 4 * words) pairs) pdt
    (v + 4 * words + 2 * pairs) (c := 1)
    (show dst + 4 * words + 2 * pairs + 1 * (n - 4 * words - 2 * pairs) ≤ space by omega)
  refine (hfirst.mono le_rfl (by omega)).trans ((hsecond.mono (by omega) (by omega)).trans ?_)
  exact hlast.mono (by omega) (by omega)

/-- Everything but the last store of `mmu_strncpy` stays inside the array. -/
theorem mmuStrncpy_eq {pdt source : ℕ} (hdst : dst + n ≤ space)
    (h : mmuStrncpy m pdt source dst n = some m') :
    ∃ m'', Keeps m m'' dst n ∧ m' = m''.store ((dst + n) % word32) 1 0 := by
  obtain ⟨len, -, rfl⟩ := Option.map_eq_some_iff.mp h
  refine ⟨_, ?_, rfl⟩
  have hlen : (if len < n then len else n) ≤ n := by
    split_ifs <;> omega
  have hcopied := mmuMemcpy_keeps m pdt source (show dst + (if len < n then len else n) ≤ space by omega)
  exact (hcopied.mono le_rfl (by omega)).trans (fill_keeps _ hdst _)

/-- Bounded copies keep what is behind the array exactly if the byte there is 0 already. -/
theorem strncpy_keeps_iff (cpu : Features) (m : Memory) (pdt source : ℕ) {dst n : ℕ}
    (hdst : dst + n ≤ space) (hn : n < space) :
    (Keeps m (strncpy cpu m dst source n) dst n ↔ m ((dst + n) % space) = 0) ∧
      ∀ m', mmuStrncpy m pdt source dst n = some m' →
        (Keeps m m' dst n ↔ m ((dst + n) % space) = 0) := by
  constructor
  · obtain ⟨m', hkeeps, heq⟩ := strncpy_eq cpu m source hdst
    rw [heq]
    exact keeps_terminated_iff hkeeps hdst hn
  · intro m' h
    obtain ⟨m'', hkeeps, rfl⟩ := mmuStrncpy_eq hdst h
    exact keeps_terminated_iff hkeeps hdst hn

/-- The path `/m` at `0x1000`. The byte at `0x2100` is 0, and no other one. -/
def pathMemory (a : ℕ) : UInt8 :=
  if a = 0x1000 then 47 else if a = 0x1001 then 109 else if a = 0x1002 ∨ a = 0x2100 then 0 else 255

/-- The path is copied into an array of 256 bytes in front of a byte that is 0. -/
theorem strncpy_keeps_iff_path :
    Keeps pathMemory (strncpy ⟨true, true⟩ pathMemory 0x2000 0x1000 256) 0x2000 256 :=
  (strncpy_keeps_iff ⟨true, true⟩ pathMemory 0 0x1000 (by decide) (by decide)).1.mpr rfl

/-- The name `/` in an array of 256 bytes, and a byte 7 behind the array. -/
theorem strncpy_overwrites_behind : ¬ Keeps (fun a => if a = 0x1000 then 47 else if a = 0x2100 then 7 else 0)
    (strncpy ⟨true, true⟩ (fun a => if a = 0x1000 then 47 else if a = 0x2100 then 7 else 0) 0x2000 0x1000
      256) 0x2000 256 := by
  obtain ⟨m', hkeeps, heq⟩ := strncpy_eq ⟨true, true⟩
    (fun a => if a = 0x1000 then 47 else if a = 0x2100 then 7 else 0) 0x1000
    (show 0x2000 + 256 ≤ space by decide)
  rw [heq, keeps_terminated_iff hkeeps (by decide) (by decide)]
  decide

end Bounds

end DosKernel.Libc.Blocks
