import DosKernel.Libc.Qsort

/-! `bsearch`. The bounds are unsigned and the middle is half of their sum, so that the sum may not
wrap. -/

namespace DosKernel.Libc.Qsort

open Lib Access Blocks

/-! ### The code -/

section Code
variable (q : Qsort)

/-- `compar`, for a key and the element at an offset. -/
def compareKey (key : Fin q.size.toNat → UInt8) (a : ℕ) (m : Memory) : Access Block Int32 := do
  touch .array () a q.size.toNat
  pure (q.compar key (q.element m a))

def bsearchLoop (key : Fin q.size.toNat → UInt8) (m : Memory) :
    (fuel : ℕ) → (start last : UInt32) → Access Block (Option ℕ)
  | 0, _, _ => diverge
  | fuel + 1, start, last =>
    if start < last then do
      let mid := (start + last) / 2
      let cmp ← q.compareKey key (mid * q.size).toNat m
      if cmp = 0 then pure (some (q.base + (mid * q.size).toNat))
      else if cmp < 0 then bsearchLoop key m fuel start mid
      else bsearchLoop key m fuel (mid + 1) last
    else pure none

/-- `bsearch`. No step makes the range longer. -/
def bsearch (key : Fin q.size.toNat → UInt8) (num : UInt32) (m : Memory) : Access Block (Option ℕ) :=
  q.bsearchLoop key m (word32 + 1) 0 num

/-- The pointer is one to an element that compares equal to the key, or no element does. -/
def Finds (num : ℕ) (m : Memory) (key : Fin q.size.toNat → UInt8) : Option ℕ → Prop
  | some p => ∃ k < num, p = q.base + k * q.size.toNat ∧ q.compar key (q.element m (k * q.size.toNat)) = 0
  | none => ∀ k < num, q.compar key (q.element m (k * q.size.toNat)) ≠ 0

end Code

/-! ### The search -/

section Search
variable {q : Qsort} {num : ℕ} {m : Memory} {key : Fin q.size.toNat → UInt8}

/-- In front of an element that is not smaller than the key, none is greater. -/
theorem Ordered.le_key (h : TotalPreorder q.compar) (hsorted : q.Ordered num m) {i j : ℕ} (hij : i ≤ j)
    (hj : j < num) (hle : 0 ≤ q.compar key (q.element m (j * q.size.toNat))) :
    0 ≤ q.compar key (q.element m (i * q.size.toNat)) := by
  rcases hij.lt_or_eq with hlt | rfl
  · rw [← h.le_iff] at hle ⊢
    exact h.trans _ _ _ (hsorted i j hlt hj) hle
  · exact hle

/-- Behind an element that is not greater than the key, none is smaller. -/
theorem Ordered.key_le (h : TotalPreorder q.compar) (hsorted : q.Ordered num m) {i j : ℕ} (hij : i ≤ j)
    (hj : j < num) (hle : q.compar key (q.element m (i * q.size.toNat)) ≤ 0) :
    q.compar key (q.element m (j * q.size.toNat)) ≤ 0 := by
  rcases hij.lt_or_eq with hlt | rfl
  · exact h.trans _ _ _ hle (hsorted i j hlt hj)
  · exact hle

/-- The loop finds an element that compares equal, if all those are between the bounds. -/
theorem bsearchLoop_ensures (h : TotalPreorder q.compar) (hnum : num < 2 ^ 31)
    (harray : q.base + num * q.size.toNat ≤ space) (hsorted : q.Ordered num m) {fuel : ℕ}
    {start last : UInt32} (hfuel : last.toNat - start.toNat < fuel) (hlast : last.toNat ≤ num)
    (hbetween : ∀ k < num, q.compar key (q.element m (k * q.size.toNat)) = 0 →
      start.toNat ≤ k ∧ k < last.toNat) :
    Ensures (q.sizes num) (q.bsearchLoop key m fuel start last) (q.Finds num m key) := by
  induction fuel generalizing start last with
  | zero => exact absurd hfuel (Nat.not_lt_zero _)
  | succ fuel ih =>
    rw [bsearchLoop, ensures_ite]
    split_ifs with hlt
    · rw [UInt32.lt_iff_toNat_lt] at hlt
      -- the sum of the bounds does not wrap
      have hmid : ((start + last) / 2).toNat = (start.toNat + last.toNat) / 2 := by
        rw [UInt32.toNat_div, UInt32.toNat_add, Nat.mod_eq_of_lt (by omega)]
        rfl
      generalize (start + last) / 2 = mid at hmid ⊢
      have hnext : (mid + 1).toNat = mid.toNat + 1 := succ_toNat (show mid.toNat < last.toNat by omega)
      have hin : mid.toNat < num := by omega
      dsimp only
      rw [offset_toNat harray hin, ensures_bind, compareKey, ensures_bind, ensures_touch, ensures_pure]
      refine ⟨slot_le hin _, ?_⟩
      rw [ensures_ite, ensures_ite]
      split_ifs with hequal hless
      · rw [ensures_pure]
        exact ⟨mid.toNat, hin, rfl, hequal⟩
      · refine ih (by omega) hin.le fun k hk hzero => ⟨(hbetween k hk hzero).1, ?_⟩
        by_contra hle
        have hback := hsorted.le_key h (Nat.not_lt.mp hle) hk (Int32.le_of_eq hzero.symm)
        exact absurd hless (Int32.not_lt.mpr hback)
      · refine ih (by omega) hlast fun k hk hzero => ⟨?_, (hbetween k hk hzero).2⟩
        rw [hnext]
        by_contra hle
        have hfront := hsorted.key_le h (show k ≤ mid.toNat by omega) hin (Int32.le_of_eq hzero)
        exact hequal (Int32.le_antisymm hfront (Int32.not_lt.mp hless))
    · rw [ensures_pure]
      rw [UInt32.lt_iff_toNat_lt] at hlt
      intro k hk hzero
      have hin := hbetween k hk hzero
      omega

theorem bsearch_ensures (h : TotalPreorder q.compar) {num : UInt32} (hnum : num.toNat < 2 ^ 31)
    (harray : q.base + num.toNat * q.size.toNat ≤ space) (hsorted : q.Ordered num.toNat m)
    (key : Fin q.size.toNat → UInt8) :
    Ensures (q.sizes num.toNat) (q.bsearch key num m) (q.Finds num.toNat m key) := by
  exact bsearchLoop_ensures h hnum harray hsorted (length_lt_fuel num) le_rfl
    fun k hk _ => ⟨Nat.zero_le k, hk⟩

/-- Every element still stands somewhere in the array. -/
theorem Sorted.element {m' : Memory} (h : q.Sorted num m m') {k : ℕ} (hk : k < num) :
    ∃ j < num, q.element m' (j * q.size.toNat) = q.element m (k * q.size.toNat) := by
  obtain ⟨σ, hσ, hperm⟩ := h.permuted
  have hin : σ.symm k < num := by
    by_contra hout
    have hfixed := hσ _ hout
    rw [Equiv.apply_symm_apply] at hfixed
    exact hout (hfixed ▸ hk)
  exact ⟨σ.symm k, hin, by rw [hperm _ hin, Equiv.apply_symm_apply]⟩

end Search

/-! ### The two functions -/

/-- `bsearch` is exact on an array that is sorted, and behind `qsort` it finds every element that
the array had. -/
theorem bsearch_exact (q : Qsort) (hcompar : TotalPreorder q.compar) {num : UInt32}
    (hnum : num.toNat < 2 ^ 31) (harray : q.base + num.toNat * q.size.toNat ≤ space) (m : Memory) :
    (q.Ordered num.toNat m → ∀ key,
      Ensures (q.sizes num.toNat) (q.bsearch key num m) (q.Finds num.toNat m key)) ∧
    (q.Placed num.toNat → Ensures (q.sizes num.toNat) (q.qsort num m) fun m' =>
      ∀ k < num.toNat, Ensures (q.sizes num.toNat) (q.bsearch (q.element m (k * q.size.toNat)) num m')
        fun r => r.isSome ∧ q.Finds num.toNat m' (q.element m (k * q.size.toNat)) r) := by
  refine ⟨fun hsorted key => bsearch_ensures hcompar hnum harray hsorted key, fun hplaced => ?_⟩
  refine (qsort_ensures hcompar hplaced m).mono fun m' hsorted k hk => ?_
  refine (bsearch_ensures hcompar hnum harray hsorted.ordered _).mono fun r hr => ⟨?_, hr⟩
  cases r with
  | some p => rfl
  | none =>
    obtain ⟨j, hj, helement⟩ := hsorted.element hk
    refine absurd ?_ (hr j hj)
    rw [helement]
    exact hcompar.refl _


theorem threeBytes_ordered : threeBytes.Ordered 3 fun a => UInt8.ofNat a := by
  intro i j hij hj
  interval_cases j <;> interval_cases i <;> decide

theorem bsearch_exact_bytes :
    Ensures (threeBytes.sizes 3) (threeBytes.bsearch (fun _ => 1) 3 fun a => UInt8.ofNat a)
      (threeBytes.Finds 3 (fun a => UInt8.ofNat a) fun _ => 1) ∧
    Ensures (threeBytes.sizes 3) (threeBytes.qsort 3 fun a => UInt8.ofNat a) fun m' =>
      ∀ k < 3, Ensures (threeBytes.sizes 3)
        (threeBytes.bsearch (threeBytes.element (fun a => UInt8.ofNat a) (k * 1)) 3 m')
        fun r => r.isSome ∧ threeBytes.Finds 3 m' (threeBytes.element (fun a => UInt8.ofNat a) (k * 1)) r :=
  have h := bsearch_exact threeBytes compareBytes_totalPreorder 
    (show (3 : UInt32).toNat < 2 ^ 31 by decide) (by decide)
    fun a => UInt8.ofNat a
  ⟨h.1 threeBytes_ordered _, h.2 threeBytes_placed⟩

end DosKernel.Libc.Qsort
