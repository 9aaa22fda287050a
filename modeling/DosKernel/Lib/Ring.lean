import Mathlib.Tactic

/-! A ring of `n` slots: the contents of `k` slots from slot `t` on. -/

namespace DosKernel.Lib

variable {α : Type*} {f g : ℕ → α} {n t k i j : ℕ}

/-- The slots `t, t + 1, …, t + k - 1` of the ring. -/
def window (f : ℕ → α) (n t k : ℕ) : List α := (List.range k).map fun i => f ((t + i) % n)

@[simp] theorem window_zero : window f n t 0 = [] := rfl

theorem window_concat : window f n t (k + 1) = window f n t k ++ [f ((t + k) % n)] := by
  simp [window, List.range_succ]

theorem window_cons (ht : t < n) :
    window f n t (k + 1) = f t :: window f n ((t + 1) % n) k := by
  rw [window, List.range_succ_eq_map, List.map_cons, List.map_map, Nat.add_zero,
    Nat.mod_eq_of_lt ht]
  congr 1
  refine List.map_congr_left fun i _ => ?_
  simp only [Function.comp_apply, Nat.succ_eq_add_one, Nat.mod_add_mod, Nat.add_assoc,
    Nat.add_comm 1]

theorem window_congr (h : ∀ i < k, f ((t + i) % n) = g ((t + i) % n)) :
    window f n t k = window g n t k :=
  List.map_congr_left fun i hi => h i (List.mem_range.mp hi)

/-- Slots less than a turn apart are different. -/
theorem slot_ne (hij : i < j) (hj : j < i + n) : (t + i) % n ≠ (t + j) % n := by
  intro h
  have hmod : i ≡ j [MOD n] := Nat.ModEq.add_left_cancel' t h
  have hdvd := (Nat.modEq_iff_dvd' hij.le).mp hmod
  exact absurd (Nat.le_of_dvd (by omega) hdvd) (by omega)

end DosKernel.Lib
