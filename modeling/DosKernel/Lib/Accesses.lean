import Mathlib.Tactic

/-! Computations that may fail to end and that touch several buffers. A computation comes with the
ranges of addresses that it touches, each in a buffer; `Ensures` says that it ends, that all its
ranges lie inside their buffers and that its result has a property. -/

namespace DosKernel.Lib

/-- A result, if the computation ends, and the ranges touched on the way. -/
structure Access (ι α : Type) where
  value : Option α
  ranges : List (ι × ℕ × ℕ)

namespace Access

variable {ι α β : Type} {size : ι → ℕ}

instance : Monad (Access ι) where
  pure a := ⟨some a, []⟩
  bind x f :=
    match x.value with
    | none => ⟨none, x.ranges⟩
    | some a => ⟨(f a).value, x.ranges ++ (f a).ranges⟩

/-- The result `v` comes with the `n` addresses from `a` on of a buffer. -/
def touch (i : ι) (v : α) (a n : ℕ) : Access ι α := ⟨some v, [(i, a, n)]⟩

/-- A computation that does not end. -/
def diverge : Access ι α := ⟨none, []⟩

/-- Every range ends inside its buffer. -/
def Inside (size : ι → ℕ) (x : Access ι α) : Prop := ∀ r ∈ x.ranges, r.2.1 + r.2.2 ≤ size r.1

/-- The computation ends inside its buffers with a result that has the property. -/
def Ensures (size : ι → ℕ) (x : Access ι α) (Q : α → Prop) : Prop :=
  Inside size x ∧ ∃ a, x.value = some a ∧ Q a

theorem inside_pure (a : α) : Inside size (pure a : Access ι α) :=
  fun _ hr => absurd hr List.not_mem_nil

theorem inside_diverge : Inside size (diverge : Access ι α) :=
  fun _ hr => absurd hr List.not_mem_nil

theorem inside_touch_bind (i : ι) (v : β) (a n : ℕ) (f : β → Access ι α) :
    Inside size (touch i v a n >>= f) ↔ a + n ≤ size i ∧ Inside size (f v) := by
  constructor
  · intro h
    exact ⟨h (i, a, n) List.mem_cons_self, fun r hr => h r (List.mem_cons_of_mem _ hr)⟩
  · rintro ⟨hfirst, hrest⟩ r hr
    rcases List.mem_cons.mp hr with rfl | hr
    · exact hfirst
    · exact hrest r hr

@[simp] theorem ensures_pure (a : α) (Q : α → Prop) :
    Ensures size (pure a : Access ι α) Q ↔ Q a := by
  constructor
  · rintro ⟨-, b, hb, hQ⟩
    exact Option.some.inj hb ▸ hQ
  · intro hQ
    exact ⟨fun r hr => absurd hr List.not_mem_nil, a, rfl, hQ⟩

@[simp] theorem ensures_touch (i : ι) (v : α) (a n : ℕ) (Q : α → Prop) :
    Ensures size (touch i v a n) Q ↔ a + n ≤ size i ∧ Q v := by
  unfold Ensures Inside touch
  simp

@[simp] theorem not_ensures_diverge (Q : α → Prop) : ¬ Ensures size (diverge : Access ι α) Q := by
  rintro ⟨-, a, ha, -⟩
  exact absurd ha (by simp [diverge])

@[simp] theorem ensures_bind (x : Access ι α) (f : α → Access ι β) (Q : β → Prop) :
    Ensures size (x >>= f) Q ↔ Ensures size x fun a => Ensures size (f a) Q := by
  obtain ⟨value, ranges⟩ := x
  cases value with
  | none =>
    constructor
    · rintro ⟨-, b, hb, -⟩
      exact absurd hb (by simp [Bind.bind])
    · rintro ⟨-, a, ha, -⟩
      exact absurd ha (by simp)
  | some a =>
    have hranges : Inside size (⟨some a, ranges⟩ >>= f : Access ι β) ↔
        Inside size (⟨some a, ranges⟩ : Access ι α) ∧ Inside size (f a) := by
      simp only [Inside, Bind.bind, List.mem_append, or_imp, forall_and]
    constructor
    · rintro ⟨hinside, b, hb, hQ⟩
      obtain ⟨hx, hf⟩ := hranges.mp hinside
      exact ⟨hx, a, rfl, hf, b, hb, hQ⟩
    · rintro ⟨hx, a', ha', hf, b, hb, hQ⟩
      obtain rfl := Option.some.inj ha'
      exact ⟨hranges.mpr ⟨hx, hf⟩, b, hb, hQ⟩

@[simp] theorem ensures_ite (c : Prop) [Decidable c] (x y : Access ι α) (Q : α → Prop) :
    Ensures size (if c then x else y) Q ↔ if c then Ensures size x Q else Ensures size y Q := by
  split_ifs <;> rfl

/-- What does not depend on the result. -/
theorem ensures_const_and (x : Access ι α) (p : Prop) (Q : α → Prop) :
    Ensures size x (fun a => p ∧ Q a) ↔ p ∧ Ensures size x Q := by
  constructor
  · rintro ⟨hinside, a, ha, hp, hQ⟩
    exact ⟨hp, hinside, a, ha, hQ⟩
  · rintro ⟨hp, hinside, a, ha, hQ⟩
    exact ⟨hinside, a, ha, hp, hQ⟩

theorem Ensures.mono {x : Access ι α} {P Q : α → Prop} (h : Ensures size x P)
    (hPQ : ∀ a, P a → Q a) : Ensures size x Q := by
  obtain ⟨hinside, a, ha, hP⟩ := h
  exact ⟨hinside, a, ha, hPQ a hP⟩

end Access

end DosKernel.Lib
