import Mathlib.Tactic

/-! The elements of a list in cyclic order, from behind one of them around to it. -/

namespace DosKernel.Lib

variable {α : Type*} {xs ws : List α} {c w : α}

/-- `ws` are the elements behind `c` up to the end of `xs`, then those from its start
up to `c`. -/
def CyclicFrom (xs : List α) (c : α) (ws : List α) : Prop :=
  ∃ ys zs, xs = ys ++ c :: zs ∧ ws = zs ++ ys

theorem CyclicFrom.perm (h : CyclicFrom xs c ws) : (ws ++ [c]).Perm xs := by
  obtain ⟨ys, zs, rfl, rfl⟩ := h
  have hswap : (zs ++ (ys ++ [c])).Perm (ys ++ [c] ++ zs) := List.perm_append_comm
  simpa using hswap

theorem CyclicFrom.singleton (h : CyclicFrom xs c []) : xs = [c] := by
  obtain ⟨ys, zs, rfl, hnil⟩ := h
  obtain ⟨rfl, rfl⟩ := List.append_eq_nil_iff.mp hnil.symm
  rfl

theorem CyclicFrom.next (h : CyclicFrom xs c (w :: ws)) : CyclicFrom xs w (ws ++ [c]) := by
  obtain ⟨ys, zs, rfl, hw⟩ := h
  cases zs with
  | nil =>
    -- `c` is the last one, so `w` is the first.
    obtain rfl : ys = w :: ws := hw.symm
    exact ⟨[], ws ++ [c], rfl, by simp⟩
  | cons z zs =>
    obtain ⟨rfl, rfl⟩ := List.cons.inj hw
    exact ⟨ys ++ [c], zs, by simp, by simp⟩

end DosKernel.Lib
