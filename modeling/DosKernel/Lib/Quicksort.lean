import Mathlib.Logic.Equiv.Basic
import Mathlib.Tactic

/-! Quicksort with the last element as the pivot, on an array that is a function from places to
elements. The elements that are smaller than the pivot are swapped to the front one by one. -/

namespace DosKernel.Lib

variable {α : Type*}

/-- The partition loop: the `n` elements from `j` on are compared with the one at `p`, and `k` is the
place for the next smaller one. -/
def partitionFrom (lt : α → α → Bool) (p : ℕ) : (n k j : ℕ) → (ℕ → α) → ℕ × (ℕ → α)
  | 0, k, _, a => (k, a)
  | n + 1, k, j, a =>
    if lt (a j) (a p) then partitionFrom lt p n (k + 1) (j + 1) (a ∘ Equiv.swap k j)
    else partitionFrom lt p n k (j + 1) a

/-- The places from `lo` up to `hi` are sorted. -/
def quicksort (lt : α → α → Bool) : (fuel lo hi : ℕ) → (ℕ → α) → ℕ → α
  | 0, _, _, a => a
  | fuel + 1, lo, hi, a =>
    if hi - lo ≤ 1 then a
    else
      let r := partitionFrom lt (hi - 1) (hi - 1 - lo) lo lo a
      quicksort lt fuel (r.1 + 1) hi (quicksort lt fuel lo r.1 (r.2 ∘ Equiv.swap r.1 (hi - 1)))

/-- The elements from `lo` up to `hi` are the same in another order, and all others are as they were. -/
def PermutedIn (lo hi : ℕ) (a b : ℕ → α) : Prop :=
  ∃ σ : Equiv.Perm ℕ, (∀ k, ¬ (lo ≤ k ∧ k < hi) → σ k = k) ∧ b = a ∘ σ

/-- No element from `lo` up to `hi` is smaller than one in front of it. -/
def SortedIn (lt : α → α → Bool) (lo hi : ℕ) (a : ℕ → α) : Prop :=
  ∀ i j, lo ≤ i → i < j → j < hi → lt (a j) (a i) = false

/-- An order up to elements that are neither smaller nor greater. -/
structure IsStrictWeak (lt : α → α → Bool) : Prop where
  asymm : ∀ x y, lt x y = true → lt y x = false
  trans : ∀ x y z, lt y x = false → lt z y = false → lt z x = false

/-! ### Permutations of a range -/

section Permutations
variable {lo hi lo' hi' k : ℕ} {a b c : ℕ → α}

theorem PermutedIn.refl (lo hi : ℕ) (a : ℕ → α) : PermutedIn lo hi a a := ⟨1, fun _ _ => rfl, rfl⟩

theorem PermutedIn.trans (h : PermutedIn lo hi a b) (h' : PermutedIn lo hi b c) : PermutedIn lo hi a c := by
  obtain ⟨σ, hσ, rfl⟩ := h
  obtain ⟨τ, hτ, rfl⟩ := h'
  refine ⟨σ * τ, fun k hk => ?_, rfl⟩
  rw [Equiv.Perm.mul_apply, hτ k hk, hσ k hk]

theorem PermutedIn.mono (h : PermutedIn lo' hi' a b) (hlo : lo ≤ lo') (hhi : hi' ≤ hi) :
    PermutedIn lo hi a b := by
  obtain ⟨σ, hσ, hb⟩ := h
  exact ⟨σ, fun k hk => hσ k (by omega), hb⟩

theorem permutedIn_swap (a : ℕ → α) {i j : ℕ} (h : lo ≤ i ∧ i < hi) (h' : lo ≤ j ∧ j < hi) :
    PermutedIn lo hi a (a ∘ Equiv.swap i j) := by
  refine ⟨Equiv.swap i j, fun k hk => Equiv.swap_apply_of_ne_of_ne ?_ ?_, rfl⟩
  · rintro rfl
    exact hk h
  · rintro rfl
    exact hk h'

theorem PermutedIn.outside (h : PermutedIn lo hi a b) (hk : ¬ (lo ≤ k ∧ k < hi)) : b k = a k := by
  obtain ⟨σ, hσ, rfl⟩ := h
  rw [Function.comp_apply, hσ k hk]

/-- What holds of all elements of the range still does. -/
theorem PermutedIn.forall (h : PermutedIn lo hi a b) {P : α → Prop}
    (hP : ∀ k, lo ≤ k → k < hi → P (a k)) (hlo : lo ≤ k) (hhi : k < hi) : P (b k) := by
  obtain ⟨σ, hσ, rfl⟩ := h
  by_contra hnot
  have hout : ¬ (lo ≤ σ k ∧ σ k < hi) := fun hin => hnot (hP _ hin.1 hin.2)
  have hfixed : σ k = k := σ.injective (hσ _ hout)
  rw [hfixed] at hout
  exact hout ⟨hlo, hhi⟩

end Permutations

/-! ### The partition -/

section Partition
variable {lo k j p n : ℕ}

/-- The loop ends with the smaller elements in front. -/
theorem partitionFrom_spec (lt : α → α → Bool) (a : ℕ → α) (hk : lo ≤ k) (hkj : k ≤ j) (hp : j + n = p)
    (hsmall : ∀ i, lo ≤ i → i < k → lt (a i) (a p) = true)
    (hlarge : ∀ i, k ≤ i → i < j → lt (a i) (a p) = false) :
    PermutedIn lo p a (partitionFrom lt p n k j a).2 ∧
      k ≤ (partitionFrom lt p n k j a).1 ∧ (partitionFrom lt p n k j a).1 ≤ p ∧
      (∀ i, lo ≤ i → i < (partitionFrom lt p n k j a).1 →
        lt ((partitionFrom lt p n k j a).2 i) (a p) = true) ∧
      ∀ i, (partitionFrom lt p n k j a).1 ≤ i → i < p →
        lt ((partitionFrom lt p n k j a).2 i) (a p) = false := by
  induction n generalizing k j a with
  | zero =>
    obtain rfl : j = p := hp
    exact ⟨.refl _ _ _, le_rfl, hkj, hsmall, hlarge⟩
  | succ n ih =>
    rw [partitionFrom]
    split_ifs with hlt
    · have hpivot : (a ∘ Equiv.swap k j) p = a p := by
        rw [Function.comp_apply, Equiv.swap_apply_of_ne_of_ne (by omega) (by omega)]
      have hsmall' : ∀ i, lo ≤ i → i < k + 1 → lt ((a ∘ Equiv.swap k j) i) (a p) = true := by
        intro i hi hik
        rw [Function.comp_apply]
        rcases (Nat.lt_succ_iff.mp hik).lt_or_eq with hlt' | rfl
        · rw [Equiv.swap_apply_of_ne_of_ne (by omega) (by omega)]
          exact hsmall i hi hlt'
        · rwa [Equiv.swap_apply_left]
      have hlarge' : ∀ i, k + 1 ≤ i → i < j + 1 → lt ((a ∘ Equiv.swap k j) i) (a p) = false := by
        intro i hi hij
        rw [Function.comp_apply]
        rcases (Nat.lt_succ_iff.mp hij).lt_or_eq with hlt' | rfl
        · rw [Equiv.swap_apply_of_ne_of_ne (by omega) (by omega)]
          exact hlarge i (by omega) hlt'
        · rw [Equiv.swap_apply_right]
          exact hlarge k le_rfl (by omega)
      have hrest := ih (k := k + 1) (j := j + 1) (a ∘ Equiv.swap k j) (by omega) (by omega) (by omega)
      rw [hpivot] at hrest
      obtain ⟨hperm, hle, hrest⟩ := hrest hsmall' hlarge'
      have hswap : PermutedIn lo p a (a ∘ Equiv.swap k j) :=
        permutedIn_swap a ⟨hk, by omega⟩ ⟨by omega, by omega⟩
      exact ⟨hswap.trans hperm, by omega, hrest⟩
    · rw [Bool.not_eq_true] at hlt
      refine ih a hk (by omega) (by omega) hsmall fun i hi hij => ?_
      rcases (Nat.lt_succ_iff.mp hij).lt_or_eq with hlt' | rfl
      · exact hlarge i hi hlt'
      · exact hlt

end Partition

/-! ### The sort -/

section Sorting
variable {lt : α → α → Bool} {lo hi k : ℕ} {a : ℕ → α} {x : α}

theorem partition_places (lt : α → α → Bool) (a : ℕ → α) (hlt : lo < hi) : ∃ k b,
    partitionFrom lt (hi - 1) (hi - 1 - lo) lo lo a = (k, b) ∧ lo ≤ k ∧ k < hi ∧
      PermutedIn lo hi a (b ∘ Equiv.swap k (hi - 1)) ∧
      (b ∘ Equiv.swap k (hi - 1)) k = a (hi - 1) ∧
      (∀ i, lo ≤ i → i < k → lt ((b ∘ Equiv.swap k (hi - 1)) i) (a (hi - 1)) = true) ∧
      ∀ i, k + 1 ≤ i → i < hi → lt ((b ∘ Equiv.swap k (hi - 1)) i) (a (hi - 1)) = false := by
  have hspec := partitionFrom_spec lt a (le_refl lo) (le_refl lo)
    (show lo + (hi - 1 - lo) = hi - 1 by omega) (fun i hi hik => by omega) fun i hi hij => by omega
  generalize partitionFrom lt (hi - 1) (hi - 1 - lo) lo lo a = r at hspec ⊢
  obtain ⟨k, b⟩ := r
  obtain ⟨hperm, hlo, hle, hsmall, hlarge⟩ := hspec
  dsimp only at hperm hlo hle hsmall hlarge
  refine ⟨k, b, rfl, hlo, by omega, ?_, ?_, fun i hi hik => ?_, fun i hki hi' => ?_⟩
  · exact (hperm.mono le_rfl (by omega)).trans
      (permutedIn_swap b ⟨hlo, by omega⟩ ⟨by omega, by omega⟩)
  · rw [Function.comp_apply, Equiv.swap_apply_left, hperm.outside (by omega)]
  · rw [Function.comp_apply, Equiv.swap_apply_of_ne_of_ne (by omega) (by omega)]
    exact hsmall i hi hik
  · rw [Function.comp_apply]
    by_cases hlast : i = hi - 1
    · rw [hlast, Equiv.swap_apply_right]
      exact hlarge k le_rfl (by omega)
    · rw [Equiv.swap_apply_of_ne_of_ne (by omega) hlast]
      exact hlarge i (by omega) (by omega)

/-- Between smaller elements and others, the pivot makes one sorted range of two. -/
theorem sortedIn_pivot (h : IsStrictWeak lt) (hfront : ∀ i, lo ≤ i → i < k → lt (a i) x = true)
    (hmiddle : a k = x) (hback : ∀ i, k + 1 ≤ i → i < hi → lt (a i) x = false)
    (hleft : SortedIn lt lo k a) (hright : SortedIn lt (k + 1) hi a) : SortedIn lt lo hi a := by
  intro i j hi hij hj
  rcases Nat.lt_trichotomy j k with hjk | rfl | hkj
  · exact hleft i j hi hij hjk
  · rw [hmiddle]
    exact h.asymm _ _ (hfront i hi hij)
  · rcases Nat.lt_trichotomy i k with hik | rfl | hki
    · exact h.trans _ _ _ (h.asymm _ _ (hfront i hi hik)) (hback j (by omega) hj)
    · rw [hmiddle]
      exact hback j (by omega) hj
    · exact hright i j (by omega) hij hj

/-- The elements from `lo` up to `hi` are sorted, whatever stands around them. -/
theorem quicksort_spec (h : IsStrictWeak lt) {fuel : ℕ} (hfuel : hi - lo ≤ fuel) (a : ℕ → α) :
    PermutedIn lo hi a (quicksort lt fuel lo hi a) ∧ SortedIn lt lo hi (quicksort lt fuel lo hi a) := by
  induction fuel generalizing lo hi a with
  | zero => exact ⟨.refl _ _ _, fun i j hi hij hj => by omega⟩
  | succ fuel ih =>
    rw [quicksort]
    split_ifs with hshort
    · exact ⟨.refl _ _ _, fun i j hi hij hj => by omega⟩
    · obtain ⟨k, b, hpartition, hlo, hhi, hperm, hplace, hsmall, hlarge⟩ :=
        partition_places lt a (show lo < hi by omega)
      dsimp only
      rw [hpartition]
      dsimp only
      generalize b ∘ Equiv.swap k (hi - 1) = c at hperm hplace hsmall hlarge ⊢
      obtain ⟨hleft, hsortedLeft⟩ := ih (show k - lo ≤ fuel by omega) c
      generalize quicksort lt fuel lo k c = d at hleft hsortedLeft ⊢
      obtain ⟨hright, hsortedRight⟩ := ih (show hi - (k + 1) ≤ fuel by omega) d
      generalize quicksort lt fuel (k + 1) hi d = e at hright hsortedRight ⊢
      refine ⟨(hperm.trans (hleft.mono le_rfl (by omega))).trans (hright.mono (by omega) le_rfl),
        sortedIn_pivot h (x := a (hi - 1)) (fun i hi hik => ?_) ?_ (fun i hki hi' => ?_)
          (fun i j hi hij hj => ?_) hsortedRight⟩
      · rw [hright.outside (by omega)]
        exact hleft.forall (P := fun x => lt x _ = true) hsmall hi hik
      · rw [hright.outside (by omega), hleft.outside (by omega), hplace]
      · refine hright.forall (P := fun x => lt x _ = false) (fun j hj hj' => ?_) hki hi'
        rw [hleft.outside (by omega)]
        exact hlarge j hj hj'
      · rw [hright.outside (by omega), hright.outside (by omega)]
        exact hsortedLeft i j hi hij hj

end Sorting

end DosKernel.Lib
