import Mathlib.Order.Interval.Finset.Nat
import Mathlib.Tactic

/-! Counting the positions below a bound that satisfy a predicate, when the
predicate changes on one interval. -/

namespace DosKernel.Lib

variable {m f n : ℕ} {P Q : ℕ → Prop} [DecidablePred P] [DecidablePred Q]

/-- The predicate becomes true on an interval where it was false. -/
theorem card_filter_gain (hfree : ∀ g, f ≤ g → g < f + n → g < m ∧ ¬ P g)
    (hQ : ∀ g < m, Q g ↔ P g ∨ f ≤ g ∧ g < f + n) :
    ((Finset.range m).filter Q).card = ((Finset.range m).filter P).card + n := by
  have heq : (Finset.range m).filter Q = (Finset.range m).filter P ∪ Finset.Ico f (f + n) := by
    ext g
    simp only [Finset.mem_filter, Finset.mem_range, Finset.mem_union, Finset.mem_Ico]
    constructor
    · rintro ⟨hg, hq⟩
      exact ((hQ g hg).mp hq).imp_left fun hp => ⟨hg, hp⟩
    · rintro (⟨hg, hp⟩ | hi)
      · exact ⟨hg, (hQ g hg).mpr (Or.inl hp)⟩
      · have hg := (hfree g hi.1 hi.2).1
        exact ⟨hg, (hQ g hg).mpr (Or.inr hi)⟩
  have hdisj : Disjoint ((Finset.range m).filter P) (Finset.Ico f (f + n)) := by
    rw [Finset.disjoint_left]
    intro g hg hi
    rw [Finset.mem_Ico] at hi
    exact (hfree g hi.1 hi.2).2 (Finset.mem_filter.mp hg).2
  rw [heq, Finset.card_union_of_disjoint hdisj, Nat.card_Ico]
  omega

/-- The predicate becomes false on an interval where it was true. -/
theorem card_filter_loss (hset : ∀ g, f ≤ g → g < f + n → g < m ∧ P g)
    (hQ : ∀ g < m, Q g ↔ P g ∧ ¬ (f ≤ g ∧ g < f + n)) :
    ((Finset.range m).filter Q).card + n = ((Finset.range m).filter P).card := by
  refine (card_filter_gain (f := f) (fun g hg hg' => ?_) fun g hg => ?_).symm
  · have hm := (hset g hg hg').1
    exact ⟨hm, fun hq => ((hQ g hm).mp hq).2 ⟨hg, hg'⟩⟩
  · rw [hQ g hg]
    constructor
    · intro hp
      by_cases hi : f ≤ g ∧ g < f + n
      · exact Or.inr hi
      · exact Or.inl ⟨hp, hi⟩
    · rintro (h | h)
      · exact h.1
      · exact (hset g h.1 h.2).2

end DosKernel.Lib
