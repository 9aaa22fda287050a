import Mathlib.Tactic

/-! Lists of stores into a memory: what such a list leaves, and lists that leave everything as it
is. -/

namespace DosKernel.Lib

variable {α β : Type*} [DecidableEq α] {m : α → β} {l : List (α × β)} {a : α} {v : β}

/-- The memory after the stores of a list, one after the other. -/
def stores (m : α → β) (l : List (α × β)) : α → β :=
  l.foldl (fun m s => Function.update m s.1 s.2) m

@[simp] theorem stores_nil (m : α → β) : stores m [] = m := rfl

@[simp] theorem stores_cons (m : α → β) (s : α × β) (l : List (α × β)) :
    stores m (s :: l) = stores (Function.update m s.1 s.2) l := rfl

theorem stores_of_notMem (h : ∀ s ∈ l, s.1 ≠ a) : stores m l a = m a := by
  induction l generalizing m with
  | nil => rfl
  | cons s l ih =>
    rw [stores_cons, ih fun s' hs' => h s' (List.mem_cons_of_mem s hs'),
      Function.update_of_ne (h s List.mem_cons_self).symm]

theorem stores_of_mem (hmem : (a, v) ∈ l) (h : ∀ s ∈ l, s.1 = a → s.2 = v) : stores m l a = v := by
  induction l using List.reverseRecOn with
  | nil => cases hmem
  | append_singleton l s ih =>
    rw [stores, List.foldl_append, List.foldl_cons, List.foldl_nil]
    by_cases heq : s.1 = a
    · rw [← heq, Function.update_self]
      exact h s (List.mem_append_right l (List.mem_singleton_self s)) heq
    · rw [Function.update_of_ne (Ne.symm heq)]
      apply ih
      · rcases List.mem_append.mp hmem with hmem | hmem
        · exact hmem
        · rw [← List.mem_singleton.mp hmem] at heq
          exact absurd rfl heq
      · exact fun s' hs' => h s' (List.mem_append_left [s] hs')

theorem stores_same (h : ∀ s ∈ l, m s.1 = s.2) : stores m l = m := by
  induction l with
  | nil => rfl
  | cons s l ih =>
    rw [stores_cons, ← h s List.mem_cons_self, Function.update_eq_self]
    exact ih fun s' hs' => h s' (List.mem_cons_of_mem s hs')

end DosKernel.Lib
