import Mathlib.Tactic

/-! Two nested counting loops that stop at the first hit. The outer index runs
below `n`, the inner one below `w`, and a hit at `(i, j)` is the hit of least
position `i * w + j`. -/

namespace DosKernel.Lib

/-- The first pair `(i, j)` in loop order with `q i j`. -/
def scan (n w : ℕ) (q : ℕ → ℕ → Bool) : Option (ℕ × ℕ) :=
  (List.range n).findSome? fun i => ((List.range w).find? (q i)).map fun j => (i, j)

theorem scan_eq_none {n w : ℕ} {q : ℕ → ℕ → Bool} :
    scan n w q = none ↔ ∀ i < n, ∀ j < w, q i j = false := by
  simp [scan]

theorem position_lt {w i j i' j' : ℕ} (hj : j < w) (hj' : j' < w) :
    i' * w + j' < i * w + j ↔ i' < i ∨ i' = i ∧ j' < j := by
  constructor
  · intro h
    rcases lt_trichotomy i' i with hi | hi | hi
    · exact Or.inl hi
    · subst hi; exact Or.inr ⟨rfl, by omega⟩
    · have : (i + 1) * w ≤ i' * w := Nat.mul_le_mul_right w hi
      rw [Nat.add_mul] at this
      omega
  · rintro (hi | ⟨rfl, hi⟩)
    · have : (i' + 1) * w ≤ i * w := Nat.mul_le_mul_right w hi
      rw [Nat.add_mul] at this
      omega
    · omega

theorem scan_eq_some {n w : ℕ} {q : ℕ → ℕ → Bool} {i j : ℕ} (h : scan n w q = some (i, j)) :
    i < n ∧ j < w ∧ q i j = true ∧
      ∀ i' < n, ∀ j' < w, i' * w + j' < i * w + j → q i' j' = false := by
  obtain ⟨l₁, a, l₂, hl, ha, hl₁⟩ := List.findSome?_eq_some_iff.mp h
  simp only [Option.map_eq_some_iff, Prod.mk.injEq] at ha
  obtain ⟨b, hb, rfl, rfl⟩ := ha
  obtain ⟨hq, hbw, hlow⟩ := List.find?_range_eq_some.mp hb
  have hn : l₁.length + (l₂.length + 1) = n := by simpa using congrArg List.length hl.symm
  have hget : ∀ k < n, (List.range n)[k]? = some k := fun k hk => by simp [hk]
  have ha : a = l₁.length := by
    have := hget l₁.length (by omega)
    rw [hl] at this
    simpa using this
  have hlt : ∀ k < a, k ∈ l₁ := by
    intro k hk
    have := hget k (by omega)
    rw [hl, List.getElem?_append_left (by omega)] at this
    exact List.mem_of_getElem? this
  have hbw : b < w := List.mem_range.mp hbw
  refine ⟨by omega, hbw, hq, ?_⟩
  intro i' hi' j' hj' hpos
  rcases (position_lt hbw hj').mp hpos with hi | ⟨rfl, hj⟩
  · have := hl₁ i' (hlt i' hi)
    simp only [Option.map_eq_none_iff, List.find?_eq_none, List.mem_range] at this
    simpa using this j' hj'
  · simpa using hlow j' hj

/-- The position after `(i, j)` in loop order. -/
def next (w i j : ℕ) : ℕ × ℕ := if j + 1 = w then (i + 1, 0) else (i, j + 1)

end DosKernel.Lib
