import Mathlib.Tactic

/-! Computations that read memory. A computation comes with the ranges of addresses
that it reads or hands out, each as a first address and a length; `Inside` says that
all of them end inside a buffer of the given size. -/

namespace DosKernel.Lib

/-- A value, and the ranges touched on the way to it. -/
structure Reading (α : Type) where
  value : α
  ranges : List (ℕ × ℕ)

namespace Reading

variable {α β : Type}

instance : Monad Reading where
  pure a := ⟨a, []⟩
  bind x f := ⟨(f x.value).value, x.ranges ++ (f x.value).ranges⟩

/-- The value `v` is read from `n` bytes at `a`. -/
abbrev touch (v : α) (a n : ℕ) : Reading α := ⟨v, [(a, n)]⟩

/-- Every range ends inside the buffer. -/
def Inside (size : ℕ) (x : Reading α) : Prop := ∀ r ∈ x.ranges, r.1 + r.2 ≤ size

@[simp] theorem value_pure (a : α) : (pure a : Reading α).value = a := rfl

@[simp] theorem value_bind (x : Reading α) (f : α → Reading β) :
    (x >>= f).value = (f x.value).value := rfl

@[simp] theorem inside_pure (size : ℕ) (a : α) : Inside size (pure a : Reading α) := by
  intro r hr
  cases hr

@[simp] theorem inside_touch (size : ℕ) (v : α) (a n : ℕ) :
    Inside size (touch v a n) ↔ a + n ≤ size := by
  simp [Inside]

@[simp] theorem inside_bind (size : ℕ) (x : Reading α) (f : α → Reading β) :
    Inside size (x >>= f) ↔ Inside size x ∧ Inside size (f x.value) := by
  have hranges : (x >>= f).ranges = x.ranges ++ (f x.value).ranges := rfl
  simp only [Inside, hranges, List.mem_append, or_imp, forall_and]

@[simp] theorem inside_ite (size : ℕ) (c : Prop) [Decidable c] (x y : Reading α) :
    Inside size (if c then x else y) ↔ (c → Inside size x) ∧ (¬ c → Inside size y) := by
  split_ifs with hc <;> simp [hc]

end Reading

end DosKernel.Lib
