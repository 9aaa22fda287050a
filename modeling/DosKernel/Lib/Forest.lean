import Mathlib.Tactic

/-! Forests given by a relation from parents to children and a set of roots: every element
has at most one parent, and a root has none. -/

namespace DosKernel.Lib

variable {α : Type*} {R : α → α → Prop} {root : α → Prop} {a b c : α} {k m n : ℕ}

/-- `b` is `k` steps below `a`. -/
def Steps (R : α → α → Prop) : (k : ℕ) → α → α → Prop
  | 0, a, b => a = b
  | k + 1, a, b => ∃ c, R a c ∧ Steps R k c b

theorem steps_succ : Steps R (k + 1) a b ↔ ∃ c, Steps R k a c ∧ R c b := by
  induction k generalizing a with
  | zero =>
    constructor
    · rintro ⟨c, hc, rfl⟩
      exact ⟨a, rfl, hc⟩
    · rintro ⟨c, rfl, hc⟩
      exact ⟨b, hc, rfl⟩
  | succ k ih =>
    constructor
    · rintro ⟨c, hc, hsteps⟩
      obtain ⟨d, hd, hb⟩ := ih.mp hsteps
      exact ⟨d, ⟨c, hc, hd⟩, hb⟩
    · rintro ⟨d, ⟨c, hc, hd⟩, hb⟩
      exact ⟨c, hc, ih.mpr ⟨d, hd, hb⟩⟩

theorem Steps.trans (h : Steps R m a b) (h' : Steps R k b c) : Steps R (m + k) a c := by
  induction m generalizing a with
  | zero =>
    obtain rfl := h
    rwa [Nat.zero_add]
  | succ m ih =>
    obtain ⟨d, hd, hsteps⟩ := h
    rw [Nat.add_right_comm]
    exact ⟨d, hd, ih hsteps⟩

/-- `a` is `n` steps below a root. -/
def Depth (R : α → α → Prop) (root : α → Prop) (n : ℕ) (a : α) : Prop :=
  ∃ r, root r ∧ Steps R n r a

theorem Depth.down (h : Depth R root n a) (h' : Steps R k a b) : Depth R root (n + k) b := by
  obtain ⟨r, hr, hsteps⟩ := h
  exact ⟨r, hr, hsteps.trans h'⟩

theorem Depth.child (h : Depth R root n a) (h' : R a b) : Depth R root (n + 1) b :=
  h.down ⟨b, h', rfl⟩

structure Forest (R : α → α → Prop) (root : α → Prop) : Prop where
  parent_unique : ∀ a b c, R a c → R b c → a = b
  root_parent : ∀ a b, R a b → ¬ root b

namespace Forest

theorem above_unique (h : Forest R root) (ha : Steps R k a c) (hb : Steps R k b c) : a = b := by
  induction k generalizing c with
  | zero =>
    obtain rfl := ha
    exact Eq.symm hb
  | succ k ih =>
    obtain ⟨a', ha', hac⟩ := steps_succ.mp ha
    obtain ⟨b', hb', hbc⟩ := steps_succ.mp hb
    obtain rfl := h.parent_unique a' b' c hac hbc
    exact ih ha' hb'

theorem depth_unique (h : Forest R root) (hn : Depth R root n a) (hm : Depth R root m a) :
    n = m := by
  induction n generalizing m a with
  | zero =>
    obtain ⟨r, hr, rfl⟩ := hn
    cases m with
    | zero => rfl
    | succ m =>
      obtain ⟨r', -, hsteps⟩ := hm
      obtain ⟨b, -, hb⟩ := steps_succ.mp hsteps
      exact absurd hr (h.root_parent b r hb)
  | succ n ih =>
    obtain ⟨r, hr, hsteps⟩ := hn
    obtain ⟨b, hrb, hb⟩ := steps_succ.mp hsteps
    cases m with
    | zero =>
      obtain ⟨r', hr', rfl⟩ := hm
      exact absurd hr' (h.root_parent b r' hb)
    | succ m =>
      obtain ⟨r', hr', hsteps'⟩ := hm
      obtain ⟨b', hrb', hb'⟩ := steps_succ.mp hsteps'
      obtain rfl := h.parent_unique b b' a hb hb'
      rw [ih ⟨r, hr, hrb⟩ ⟨r', hr', hrb'⟩]

theorem steps_self (h : Forest R root) (hn : Depth R root n a) (hk : Steps R k a a) : k = 0 := by
  have := h.depth_unique hn (hn.down hk)
  omega

/-- The depths along a branch are different elements. -/
theorem depth_lt_card [Fintype α] (h : Forest R root) (hn : Depth R root n a) :
    n < Fintype.card α := by
  have hbranch : ∀ m ≤ n, ∃ b, Depth R root m b := by
    intro m hm
    induction n generalizing a with
    | zero =>
      obtain rfl : m = 0 := by omega
      exact ⟨a, hn⟩
    | succ n ih =>
      rcases Nat.lt_succ_iff_lt_or_eq.mp (Nat.lt_succ_of_le hm) with hlt | rfl
      · obtain ⟨r, hr, hsteps⟩ := hn
        obtain ⟨b, hb, -⟩ := steps_succ.mp hsteps
        exact ih ⟨r, hr, hb⟩ (by omega)
      · exact ⟨a, hn⟩
  choose f hf using fun m : Fin (n + 1) => hbranch m (by omega)
  have hinj : Function.Injective f := by
    intro i j hij
    have heq := h.depth_unique (hf i) (hij ▸ hf j)
    exact Fin.ext heq
  have hcard := Fintype.card_le_of_injective f hinj
  rw [Fintype.card_fin] at hcard
  omega

end Forest

end DosKernel.Lib
