import Mathlib.Tactic

/-! One's-complement sums of 16-bit words, as the Internet checksum uses them. A sum is
determined by its residue modulo 65535, where zero is written as 65535 unless every
word is zero. Swapping the two bytes of every word multiplies the residue by 256, so a
sum of little-endian words can be checked in network byte order. -/

namespace DosKernel.Lib.OnesComplement

/-- The loop that folds the carries of a sum into its low 16 bits. -/
def fold : (passes c : ℕ) → ℕ
  | 0, c => c
  | passes + 1, c => if c / 65536 = 0 then c else fold passes (c % 65536 + c / 65536)

/-- Addition with end-around carry. -/
def add (a b : ℕ) : ℕ := if 65536 ≤ a + b then a + b - 65535 else a + b

/-- The one's-complement sum. -/
def sum (ws : List ℕ) : ℕ := ws.foldl add 0

/-- The 16-bit number that a sum comes to. -/
def residue (c : ℕ) : ℕ := if c = 0 then 0 else (c - 1) % 65535 + 1

theorem residue_lt (c : ℕ) : residue c < 65536 := by
  rw [residue]
  split_ifs <;> omega

theorem fold_eq {passes c : ℕ} (h : c ≤ passes) : fold passes c = residue c := by
  induction passes generalizing c with
  | zero =>
    obtain rfl : c = 0 := by omega
    rfl
  | succ passes ih =>
    rw [fold]
    by_cases hsmall : c / 65536 = 0
    · rw [if_pos hsmall, residue]
      split_ifs <;> omega
    · rw [if_neg hsmall, ih (by omega), residue, residue, if_neg (by omega), if_neg (by omega)]
      omega

theorem add_residue (a : ℕ) {b : ℕ} (hb : b < 65536) : add (residue a) b = residue (a + b) := by
  unfold add residue
  split_ifs <;> omega

theorem foldl_add {ws : List ℕ} (h : ∀ w ∈ ws, w < 65536) (a : ℕ) :
    ws.foldl add (residue a) = residue (a + ws.sum) := by
  induction ws generalizing a with
  | nil => rfl
  | cons w ws ih =>
    rw [List.forall_mem_cons] at h
    rw [List.foldl_cons, add_residue a h.1, ih h.2, List.sum_cons, Nat.add_assoc]

theorem sum_eq {ws : List ℕ} (h : ∀ w ∈ ws, w < 65536) : sum ws = residue ws.sum := by
  have hsum := foldl_add h 0
  rwa [Nat.zero_add] at hsum

theorem residue_eq_max_iff (c : ℕ) : residue c = 65535 ↔ 0 < c ∧ c % 65535 = 0 := by
  rw [residue]
  by_cases hc : c = 0
  · rw [if_pos hc, hc]
    decide
  · rw [if_neg hc]
    omega

theorem residue_add_complement (c : ℕ) : residue (c + (65535 - residue c)) = 65535 := by
  rw [residue_eq_max_iff, residue]
  by_cases hc : c = 0
  · rw [if_pos hc, hc]
    decide
  · rw [if_neg hc]
    omega

/-! ### Words of a byte string -/

/-- The words with the low byte first; an odd byte at the end is a low byte. -/
def leWords : List UInt8 → List ℕ
  | [] => []
  | [b] => [b.toNat]
  | b :: b' :: bs => (b.toNat + 256 * b'.toNat) :: leWords bs

/-- The words with the high byte first; an odd byte at the end is padded with zero. -/
def beWords : List UInt8 → List ℕ
  | [] => []
  | [b] => [256 * b.toNat]
  | b :: b' :: bs => (256 * b.toNat + b'.toNat) :: beWords bs

theorem beWords_lt (bs : List UInt8) : ∀ w ∈ beWords bs, w < 65536 := by
  induction bs using beWords.induct with
  | case1 => simp [beWords]
  | case2 b =>
    have hb := b.toNat_lt
    simp only [beWords, List.forall_mem_singleton]
    omega
  | case3 b b' bs ih =>
    have hb := b.toNat_lt
    have hb' := b'.toNat_lt
    rw [beWords, List.forall_mem_cons]
    exact ⟨by omega, ih⟩

theorem leWords_append {as : List UInt8} (h : as.length % 2 = 0) (bs : List UInt8) :
    leWords (as ++ bs) = leWords as ++ leWords bs := by
  induction as using leWords.induct with
  | case1 => rfl
  | case2 b => simp at h
  | case3 b b' as ih =>
    simp only [List.length_cons] at h
    simp only [List.cons_append, leWords, ih (by omega)]

theorem leWords_sum_le (bs : List UInt8) : (leWords bs).sum ≤ 65535 * ((bs.length + 1) / 2) := by
  induction bs using leWords.induct with
  | case1 => simp [leWords]
  | case2 b =>
    have hb := b.toNat_lt
    simp only [leWords, List.sum_singleton, List.length_singleton]
    omega
  | case3 b b' bs ih =>
    have hb := b.toNat_lt
    have hb' := b'.toNat_lt
    simp only [leWords, List.sum_cons, List.length_cons]
    omega

/-- Swapping the bytes of the words multiplies their sum by 256. -/
theorem leWords_sum_mod (bs : List UInt8) :
    (leWords bs).sum % 65535 = 256 * (beWords bs).sum % 65535 := by
  induction bs using leWords.induct with
  | case1 => rfl
  | case2 b =>
    simp only [leWords, beWords, List.sum_singleton]
    omega
  | case3 b b' bs ih =>
    simp only [leWords, beWords, List.sum_cons]
    omega

theorem leWords_sum_le_beWords (bs : List UInt8) : (leWords bs).sum ≤ 256 * (beWords bs).sum := by
  induction bs using leWords.induct with
  | case1 => rfl
  | case2 b =>
    simp only [leWords, beWords, List.sum_singleton]
    omega
  | case3 b b' bs ih =>
    simp only [leWords, beWords, List.sum_cons]
    omega

theorem beWords_sum_le_leWords (bs : List UInt8) : (beWords bs).sum ≤ 256 * (leWords bs).sum := by
  induction bs using leWords.induct with
  | case1 => rfl
  | case2 b => simp [leWords, beWords]
  | case3 b b' bs ih =>
    simp only [leWords, beWords, List.sum_cons]
    omega

/-- The little-endian words of a byte string sum to 65535 when those in network order do. -/
theorem sum_beWords_iff (bs : List UInt8) :
    sum (beWords bs) = 65535 ↔ residue (leWords bs).sum = 65535 := by
  have hmod := leWords_sum_mod bs
  have hle := leWords_sum_le_beWords bs
  have hge := beWords_sum_le_leWords bs
  rw [sum_eq (beWords_lt bs), residue_eq_max_iff, residue_eq_max_iff]
  omega

/-- A byte string whose little-endian words sum to 65535 does so in network order. -/
theorem sum_beWords {bs : List UInt8} (h : residue (leWords bs).sum = 65535) :
    sum (beWords bs) = 65535 := (sum_beWords_iff bs).mpr h

end DosKernel.Lib.OnesComplement
