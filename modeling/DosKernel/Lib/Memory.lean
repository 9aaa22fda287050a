import Mathlib.Tactic

/-! Byte-addressed memory with 32-bit addresses. Numbers are stored in
little-endian order; an access that runs past the last address goes on at
address 0. -/

namespace DosKernel.Lib

/-- The number of addresses. -/
def space : ℕ := 4294967296

abbrev Memory := ℕ → UInt8

namespace Memory

/-- The number in the `n` bytes from `a` on. -/
def load (m : Memory) (a : ℕ) : (n : ℕ) → ℕ
  | 0 => 0
  | n + 1 => (m (a % space)).toNat + 256 * load m (a + 1) n

/-- The position of `x` in an access that starts at `a`. -/
def offset (a x : ℕ) : ℕ := (x + space - a % space) % space

/-- The bytes at positions below `n` replaced by `f`. -/
def write (m : Memory) (a n : ℕ) (f : ℕ → UInt8) : Memory :=
  fun x => if x < space ∧ offset a x < n then f (offset a x) else m x

/-- The `n` lowest bytes of `v` stored from `a` on. -/
def store (m : Memory) (a n v : ℕ) : Memory := m.write a n fun k => UInt8.ofNat (v / 256 ^ k)

/-- `memset`. -/
def fill (m : Memory) (a n : ℕ) (c : UInt8) : Memory := m.write a n fun _ => c

/-- `memcpy`, for ranges that are disjoint or the same. -/
def copy (m : Memory) (dst src n : ℕ) : Memory :=
  m.write dst n fun k => m ((src + k) % space)

variable {m m' : Memory} {a n x k v : ℕ} {f : ℕ → UInt8}

theorem offset_of_mem (ha : a + n ≤ space) (hx : a ≤ x) (hx' : x < a + n) : offset a x = x - a := by
  simp only [offset, space] at *
  omega

theorem write_of_mem (ha : a + n ≤ space) (hx : a ≤ x) (hx' : x < a + n) :
    m.write a n f x = f (x - a) := by
  have h := offset_of_mem ha hx hx'
  rw [write, if_pos ⟨by omega, by omega⟩, h]

theorem write_of_not_mem (ha : a + n ≤ space) (hx : ¬ (a ≤ x ∧ x < a + n)) :
    m.write a n f x = m x := by
  refine if_neg ?_
  simp only [offset, space] at *
  omega

theorem write_zero (m : Memory) (a : ℕ) (f : ℕ → UInt8) : m.write a 0 f = m := by
  funext x
  exact if_neg fun h => Nat.not_lt_zero _ h.2

theorem write_congr {g : ℕ → UInt8} (h : ∀ k < n, f k = g k) : m.write a n f = m.write a n g := by
  funext x
  rw [write, write]
  split
  · rename_i hx
    exact h _ hx.2
  · rfl

/-- A write that goes on where another one ended. -/
theorem write_append {j c : ℕ} (ha : a + (j + c) ≤ space) :
    (m.write a j f).write (a + j) c (fun k => f (j + k)) = m.write a (j + c) f := by
  funext x
  by_cases h1 : a ≤ x ∧ x < a + j
  · rw [write_of_not_mem (by omega) (by omega), write_of_mem (by omega) h1.1 h1.2,
      write_of_mem ha h1.1 (by omega)]
  · by_cases h2 : a + j ≤ x ∧ x < a + j + c
    · rw [write_of_mem (by omega) h2.1 h2.2, write_of_mem ha (by omega) (by omega)]
      congr 1
      omega
    · rw [write_of_not_mem (by omega) h2, write_of_not_mem (by omega) h1,
        write_of_not_mem ha (by omega)]

theorem load_lt (m : Memory) (a n : ℕ) : m.load a n < 256 ^ n := by
  induction n generalizing a with
  | zero => exact Nat.one_pos
  | succ n ih =>
    have hbyte := (m (a % space)).toNat_lt
    have hrest := ih (a + 1)
    rw [load, Nat.pow_succ]
    omega

/-- Equal bytes at two places are the same number. -/
theorem load_eq {a' : ℕ} (h : ∀ k < n, m ((a + k) % space) = m' ((a' + k) % space)) :
    m.load a n = m'.load a' n := by
  induction n generalizing a a' with
  | zero => rfl
  | succ n ih =>
    have h0 := h 0 (by omega)
    rw [Nat.add_zero, Nat.add_zero] at h0
    rw [load, load, h0, ih fun k hk => ?_]
    rw [Nat.add_assoc, Nat.add_assoc a', Nat.add_comm 1 k]
    exact h (k + 1) (by omega)

theorem load_congr (ha : a + n ≤ space) (h : ∀ x, a ≤ x → x < a + n → m x = m' x) :
    m.load a n = m'.load a n := by
  refine load_eq fun k hk => ?_
  rw [Nat.mod_eq_of_lt (show a + k < space by omega)]
  exact h _ (by omega) (by omega)

theorem load_copy {src : ℕ} (ha : a + n ≤ space) : (m.copy a src n).load a n = m.load src n := by
  refine load_eq fun k hk => ?_
  rw [Nat.mod_eq_of_lt (show a + k < space by omega), copy, write_of_mem ha (by omega) (by omega),
    Nat.add_sub_cancel_left]

/-- A copy to another place gives the first `i` bytes of every memory exactly if it is that
long. -/
theorem copy_keeps_iff {i dst src : ℕ} (hdst : dst + n ≤ space) (hsrc : src + n ≤ space)
    (hne : dst ≠ src) :
    (∀ m : Memory, ∀ k < i, m.copy dst src n (dst + k) = m (src + k)) ↔ i ≤ n := by
  constructor
  · intro h
    by_contra hlt
    -- a memory whose first byte that is not copied is the only one not 0
    have hbyte := h (fun x => if x = src + n then 1 else 0) n (by omega)
    rw [copy, write_of_not_mem hdst (by omega), if_neg (by omega), if_pos rfl] at hbyte
    exact absurd hbyte (by decide)
  · intro hle m k hk
    rw [copy, write_of_mem hdst (by omega) (by omega), Nat.add_sub_cancel_left,
      Nat.mod_eq_of_lt (by omega)]

/-- The bytes of a stored number, read back from position `k` on. -/
theorem load_store_from (ha : a + n ≤ space) (i : ℕ) : ∀ k, k + i ≤ n →
    (m.store a n v).load (a + k) i = v / 256 ^ k % 256 ^ i := by
  induction i with
  | zero => intro k _; simp [load, Nat.mod_one]
  | succ i ih =>
    intro k hk
    have ha' : (a + k) % space = a + k := Nat.mod_eq_of_lt (by omega)
    have hb : (UInt8.ofNat (v / 256 ^ k)).toNat = v / 256 ^ k % 256 := UInt8.toNat_ofNat
    have hnext := ih (k + 1) (by omega)
    rw [← Nat.add_assoc] at hnext
    rw [load, hnext, ha', store, write_of_mem ha (by omega) (by omega), Nat.add_sub_cancel_left, hb,
      Nat.pow_succ, Nat.pow_succ, ← Nat.div_div_eq_div_mul, Nat.mul_comm (256 ^ i),
      Nat.mod_mul]

theorem load_store (ha : a + n ≤ space) (hv : v < 256 ^ n) : (m.store a n v).load a n = v := by
  have h := load_store_from (m := m) (v := v) ha n 0 (by omega)
  rw [Nat.add_zero, Nat.pow_zero, Nat.div_one] at h
  rw [h, Nat.mod_eq_of_lt hv]

end Memory

end DosKernel.Lib
