import Mathlib.Tactic

/-! Counting loops over a state, with and without an early exit, and their
invariant rules. -/

namespace DosKernel.Lib

variable {σ : Type*}

/-- `for (k = i; k < i + n; k++) s = body(k, s)`. -/
def forRange (body : ℕ → σ → σ) : (n i : ℕ) → σ → σ
  | 0, _, s => s
  | n + 1, i, s => forRange body n (i + 1) (body i s)

/-- The same loop, left with `false` as soon as the body returns `false`. -/
def tryRange (body : ℕ → σ → Bool × σ) : (n i : ℕ) → σ → Bool × σ
  | 0, _, s => (true, s)
  | n + 1, i, s =>
    match body i s with
    | (true, s') => tryRange body n (i + 1) s'
    | (false, s') => (false, s')

theorem forRange_add (body : ℕ → σ → σ) (a b i : ℕ) (s : σ) :
    forRange body (a + b) i s = forRange body b (i + a) (forRange body a i s) := by
  induction a generalizing i s with
  | zero => rw [Nat.zero_add]; rfl
  | succ a ih =>
    rw [show a + 1 + b = a + b + 1 by omega, forRange, ih, forRange,
      show i + 1 + a = i + (a + 1) by omega]

theorem forRange_invariant {body : ℕ → σ → σ} {I : ℕ → σ → Prop} {n i : ℕ} {s : σ}
    (h : ∀ k s, i ≤ k → k < i + n → I k s → I (k + 1) (body k s)) (hs : I i s) :
    I (i + n) (forRange body n i s) := by
  induction n generalizing i s with
  | zero => exact hs
  | succ n ih =>
    rw [forRange, show i + (n + 1) = i + 1 + n by omega]
    exact ih (fun k s hk hk' => h k s (by omega) (by omega)) (h i s le_rfl (by omega) hs)

theorem tryRange_invariant {body : ℕ → σ → Bool × σ} {I : ℕ → σ → Prop} {n i : ℕ} {s : σ}
    (h : ∀ k s, i ≤ k → k < i + n → (body k s).1 = true → I k s → I (k + 1) (body k s).2)
    (ht : (tryRange body n i s).1 = true) (hs : I i s) :
    I (i + n) (tryRange body n i s).2 := by
  induction n generalizing i s with
  | zero => exact hs
  | succ n ih =>
    have hstep := h i s le_rfl (by omega)
    rw [tryRange] at ht ⊢
    rcases hb : body i s with ⟨_ | _, s'⟩
    · rw [hb] at ht
      cases ht
    · rw [hb] at ht hstep
      rw [show i + (n + 1) = i + 1 + n by omega]
      exact ih (fun k s hk hk' => h k s (by omega) (by omega)) ht (hstep rfl hs)

/-- The rule for a loop that may be left early. -/
theorem tryRange_preserves {body : ℕ → σ → Bool × σ} {I : σ → Prop} {n i : ℕ} {s : σ}
    (h : ∀ k s, k < i + n → I s → I (body k s).2) (hs : I s) : I (tryRange body n i s).2 := by
  induction n generalizing i s with
  | zero => exact hs
  | succ n ih =>
    have hstep := h i s (by omega) hs
    rw [tryRange]
    rcases hb : body i s with ⟨_ | _, s'⟩
    · rw [hb] at hstep
      exact hstep
    · rw [hb] at hstep
      exact ih (fun k s hk => h k s (by omega)) hstep

/-- The rule for showing that a loop is not left early. -/
theorem tryRange_total {f : ℕ → σ → Bool × σ} {I : ℕ → σ → Prop} {n i : ℕ} {s : σ}
    (h : ∀ k s, i ≤ k → k < i + n → I k s → (f k s).1 = true ∧ I (k + 1) (f k s).2)
    (hs : I i s) : (tryRange f n i s).1 = true ∧ I (i + n) (tryRange f n i s).2 := by
  induction n generalizing i s with
  | zero => exact ⟨rfl, hs⟩
  | succ n ih =>
    have hstep := h i s le_rfl (by omega) hs
    rw [tryRange]
    rcases hb : f i s with ⟨_ | _, s'⟩
    · rw [hb] at hstep
      exact absurd hstep.1 (by simp)
    · rw [hb] at hstep
      rw [show i + (n + 1) = i + 1 + n by omega]
      exact ih (fun k s hk hk' => h k s (by omega) (by omega)) hstep.2

/-- The rule for a loop whose body may fail: when every round succeeds, so does the loop. -/
theorem foldlM_range_invariant {body : σ → ℕ → Option σ} {I : ℕ → σ → Prop} {n : ℕ} {s : σ}
    (h : ∀ k < n, ∀ s, I k s → ∃ s', body s k = some s' ∧ I (k + 1) s') (hs : I 0 s) :
    ∃ s', (List.range n).foldlM body s = some s' ∧ I n s' := by
  induction n with
  | zero => exact ⟨s, rfl, hs⟩
  | succ n ih =>
    obtain ⟨s', hrun, hs'⟩ := ih fun k hk => h k (Nat.lt_succ_of_lt hk)
    obtain ⟨s'', hstep, hs''⟩ := h n (Nat.lt_succ_self n) s' hs'
    refine ⟨s'', ?_, hs''⟩
    rw [List.range_succ, List.foldlM_append, hrun]
    simpa using hstep

end DosKernel.Lib
