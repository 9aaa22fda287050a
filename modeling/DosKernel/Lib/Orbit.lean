import Mathlib.Data.Set.Finite.Basic
import Mathlib.Data.Fintype.EquivFin
import Mathlib.Logic.Function.Iterate
import Mathlib.Tactic

/-! Walks that apply a function as long as a condition holds. In a finite set such a walk comes
to an end unless it comes back to where it has been. -/

namespace DosKernel.Lib

variable {α : Type*} {next : α → α} {go : α → Prop} {a : α} {i j n : ℕ}

/-- The walk goes on at each of its first places, up to place `n`. -/
def Goes (next : α → α) (go : α → Prop) (a : α) (n : ℕ) : Prop := ∀ k ≤ n, go (next^[k] a)

theorem Goes.mono (h : Goes next go a n) (hij : i ≤ n) : Goes next go a i :=
  fun k hk => h k (hk.trans hij)

theorem goes_zero : Goes next go a 0 ↔ go a :=
  ⟨fun h => h 0 le_rfl, fun h k hk => by rwa [Nat.le_zero.mp hk]⟩

theorem goes_succ : Goes next go a (n + 1) ↔ go a ∧ Goes next go (next a) n := by
  constructor
  · exact fun h => ⟨h 0 (Nat.zero_le _), fun k hk => h (k + 1) (Nat.succ_le_succ hk)⟩
  · rintro ⟨hfirst, hrest⟩ k hk
    cases k with
    | zero => exact hfirst
    | succ k => exact hrest k (Nat.le_of_succ_le_succ hk)

/-- The places behind one that was met before have all been met before it. -/
theorem exists_lt_of_repeat (hij : i < j) (h : next^[i] a = next^[j] a) (n : ℕ) :
    ∃ k < j, next^[n] a = next^[k] a := by
  induction n with
  | zero => exact ⟨0, by omega, rfl⟩
  | succ n ih =>
    obtain ⟨k, hk, heq⟩ := ih
    have hnext : next^[n + 1] a = next^[k + 1] a := by
      rw [Function.iterate_succ_apply', Function.iterate_succ_apply', heq]
    rcases Nat.lt_or_ge (k + 1) j with hlt | hge
    · exact ⟨k + 1, hlt, hnext⟩
    · refine ⟨i, hij, hnext.trans ?_⟩
      rw [h, show k + 1 = j by omega]

/-- A walk that ends has met no place twice. -/
theorem Goes.ne_of_ends (h : Goes next go a j) (hend : ∃ n, ¬ go (next^[n] a)) (hij : i < j) :
    next^[i] a ≠ next^[j] a := by
  intro heq
  obtain ⟨n, hn⟩ := hend
  obtain ⟨k, hk, hval⟩ := exists_lt_of_repeat hij heq n
  rw [hval] at hn
  exact hn (h k hk.le)

theorem ends_iff (hfin : {x | go x}.Finite) : (∃ n, ¬ go (next^[n] a)) ↔
    ∀ i j, i < j → Goes next go a j → next^[i] a ≠ next^[j] a := by
  constructor
  · exact fun hend i j hij h => h.ne_of_ends hend hij
  · intro h
    by_contra hgo
    push Not at hgo
    have := hfin.to_subtype
    obtain ⟨i, j, hne, heq⟩ :=
      Finite.exists_ne_map_eq_of_infinite fun n => (⟨next^[n] a, hgo n⟩ : {x | go x})
    have hval : next^[i] a = next^[j] a := congrArg Subtype.val heq
    rcases Nat.lt_or_gt_of_ne hne with hlt | hlt
    · exact h i j hlt (fun k _ => hgo k) hval
    · exact h j i hlt (fun k _ => hgo k) hval.symm

/-- A walk over numbers below a bound that ends does so after fewer steps than the bound. -/
theorem ends_lt_bound {next : ℕ → ℕ} {go : ℕ → Prop} {a bound : ℕ}
    (hbound : ∀ n, next^[n] a < bound) (hend : ∃ n, ¬ go (next^[n] a)) :
    ∃ n < bound, ¬ go (next^[n] a) ∧ ∀ k < n, go (next^[k] a) := by
  classical
  have hmin : ∀ k < Nat.find hend, go (next^[k] a) := fun k hk => not_not.mp (Nat.find_min hend hk)
  have hlast := Nat.find_spec hend
  have hinj : Set.InjOn (fun k => next^[k] a) (Finset.range (Nat.find hend + 1)) := by
    -- the last place differs from the others in that the walk does not go on there
    have hne : ∀ i j, i < j → j ≤ Nat.find hend → next^[i] a ≠ next^[j] a := by
      intro i j hij hj heq
      rcases hj.lt_or_eq with hlt | rfl
      · exact Goes.ne_of_ends (fun k hk => hmin k (hk.trans_lt hlt)) hend hij heq
      · exact hlast (heq ▸ hmin i hij)
    intro i hi j hj heq
    rw [Finset.coe_range, Set.mem_Iio] at hi hj
    rcases lt_trichotomy i j with hlt | hij | hlt
    · exact absurd heq (hne i j hlt (by omega))
    · exact hij
    · exact absurd heq.symm (hne j i hlt (by omega))
  have hmaps : Set.MapsTo (fun k => next^[k] a) (Finset.range (Nat.find hend + 1)) (Finset.range bound) := by
    intro k _
    rw [Finset.coe_range, Set.mem_Iio]
    exact hbound k
  have hcard := Finset.card_le_card_of_injOn _ hmaps hinj
  rw [Finset.card_range, Finset.card_range] at hcard
  exact ⟨_, hcard, hlast, hmin⟩

/-- A walk over numbers below a bound ends if each of its steps goes up. -/
theorem ends_of_lt_next {next : ℕ → ℕ} {go : ℕ → Prop} {a bound : ℕ}
    (hbound : ∀ n, next^[n] a < bound)
    (hup : ∀ n, Goes next go a n → next^[n] a < next^[n + 1] a) : ∃ n, ¬ go (next^[n] a) := by
  by_contra hgo
  push Not at hgo
  have hge : ∀ n, n ≤ next^[n] a := fun n => by
    induction n with
    | zero => exact Nat.zero_le _
    | succ n ih => exact ih.trans_lt (hup n fun k _ => hgo k)
  exact absurd (hbound bound) (not_lt.mpr (hge bound))

/-- A walk over numbers below a bound that ends has fewer places than the bound. -/
theorem Goes.lt_bound {next : ℕ → ℕ} {a bound : ℕ} (h : Goes next (· < bound) a n)
    (hend : ∃ n, ¬ next^[n] a < bound) : n < bound := by
  have hinj : Set.InjOn (fun k => next^[k] a) (Finset.range (n + 1)) := by
    intro i hi j hj heq
    rw [Finset.coe_range, Set.mem_Iio] at hi hj
    by_contra hne
    rcases Nat.lt_or_gt_of_ne hne with hlt | hlt
    · exact (h.mono (by omega)).ne_of_ends hend hlt heq
    · exact (h.mono (by omega)).ne_of_ends hend hlt heq.symm
  have hmaps : Set.MapsTo (fun k => next^[k] a) (Finset.range (n + 1)) (Finset.range bound) := by
    intro k hk
    rw [Finset.coe_range, Set.mem_Iio] at hk ⊢
    exact h k (by omega)
  have hcard := Finset.card_le_card_of_injOn _ hmaps hinj
  rw [Finset.card_range, Finset.card_range] at hcard
  exact hcard

end DosKernel.Lib
