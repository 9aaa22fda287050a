import Mathlib.Tactic

/-! Intrusive singly linked lists. A node is a non-null address and `next` gives the
address stored in it; the null address is 0. -/

namespace DosKernel.Lib

variable {next next' : ℕ → ℕ} {a b c p q fuel : ℕ} {xs ys : List ℕ}

/-- From `a`, following `next` over the nodes `xs` leads to `b`. -/
def IsSeg (next : ℕ → ℕ) : ℕ → List ℕ → ℕ → Prop
  | a, [], b => a = b
  | a, x :: xs, b => a = x ∧ x ≠ 0 ∧ IsSeg next (next x) xs b

/-- The list at `a` has the nodes `xs`. -/
def IsList (next : ℕ → ℕ) (a : ℕ) (xs : List ℕ) : Prop := IsSeg next a xs 0

/-- The nodes from `a` on, at most `fuel` of them. -/
def walk (next : ℕ → ℕ) : (fuel a : ℕ) → List ℕ
  | 0, _ => []
  | fuel + 1, a => if a = 0 then [] else a :: walk next fuel (next a)

theorem IsSeg.ne_zero (h : IsSeg next a xs b) {x : ℕ} (hx : x ∈ xs) : x ≠ 0 := by
  induction xs generalizing a with
  | nil => cases hx
  | cons y ys ih =>
    rcases List.mem_cons.mp hx with rfl | hx
    · exact h.2.1
    · exact ih h.2.2 hx

theorem isSeg_append : IsSeg next a (xs ++ ys) b ↔ ∃ c, IsSeg next a xs c ∧ IsSeg next c ys b := by
  induction xs generalizing a with
  | nil => simp [IsSeg]
  | cons x xs ih =>
    rw [List.cons_append, IsSeg, ih]
    constructor
    · rintro ⟨h1, h2, c, h3, h4⟩
      exact ⟨c, ⟨h1, h2, h3⟩, h4⟩
    · rintro ⟨c, ⟨h1, h2, h3⟩, h4⟩
      exact ⟨h1, h2, c, h3, h4⟩

theorem IsSeg.congr (h : IsSeg next a xs b) (heq : ∀ x ∈ xs, next' x = next x) :
    IsSeg next' a xs b := by
  induction xs generalizing a with
  | nil => exact h
  | cons x xs ih =>
    refine ⟨h.1, h.2.1, ?_⟩
    rw [heq x List.mem_cons_self]
    exact ih h.2.2 fun y hy => heq y (List.mem_cons_of_mem x hy)

theorem IsList.walk_eq (h : IsList next a xs) (hfuel : xs.length ≤ fuel) :
    walk next fuel a = xs := by
  induction xs generalizing a fuel with
  | nil =>
    have ha : a = 0 := h
    cases fuel with
    | zero => rfl
    | succ fuel => rw [walk, if_pos ha]
  | cons x xs ih =>
    obtain ⟨rfl, hx, ht⟩ := h
    cases fuel with
    | zero => exact absurd hfuel (by simp)
    | succ fuel =>
      rw [walk, if_neg hx, ih ht (by simpa using hfuel)]

theorem IsList.unique (hx : IsList next a xs) (hy : IsList next a ys) : xs = ys := by
  have h := hx.walk_eq (le_max_left xs.length ys.length)
  rwa [hy.walk_eq (le_max_right xs.length ys.length), eq_comm] at h

theorem IsList.next_of_append (h : IsList next a (xs ++ p :: ys)) : IsList next (next p) ys := by
  obtain ⟨c, -, rfl, -, hp⟩ := isSeg_append.mp h
  exact hp

theorem IsList.nodup (h : IsList next a xs) : xs.Nodup := by
  induction xs generalizing a with
  | nil => exact List.nodup_nil
  | cons x xs ih =>
    obtain ⟨rfl, -, ht⟩ := h
    refine List.nodup_cons.mpr ⟨fun hx => ?_, ih ht⟩
    obtain ⟨ys, zs, rfl⟩ := List.append_of_mem hx
    have hlen := congrArg List.length (IsList.unique ht (IsList.next_of_append ht))
    simp only [List.length_append, List.length_cons] at hlen
    omega

theorem IsList.length_le {n : ℕ} (h : IsList next a xs) (hn : ∀ x ∈ xs, x < n) : xs.length ≤ n := by
  rw [← List.toFinset_card_of_nodup h.nodup, ← Finset.card_range n]
  exact Finset.card_le_card fun x hx => Finset.mem_range.mpr (hn x (List.mem_toFinset.mp hx))

theorem not_mem_rest (h : (xs ++ p :: ys).Nodup) : p ∉ xs ++ ys :=
  (List.nodup_cons.mp (List.nodup_middle.mp h)).1

theorem mem_of_mem_rest (h : (xs ++ p :: ys).Nodup) (hq : q ∈ xs ++ ys) :
    q ∈ xs ++ p :: ys ∧ q ≠ p := by
  refine ⟨?_, fun he => not_mem_rest h (he ▸ hq)⟩
  rcases List.mem_append.mp hq with hq | hq
  · exact List.mem_append_left _ hq
  · exact List.mem_append_right _ (List.mem_cons_of_mem p hq)

theorem erase_eq_rest (h : (xs ++ p :: ys).Nodup) : (xs ++ p :: ys).erase p = xs ++ ys := by
  have hp : p ∉ xs := fun hx => not_mem_rest h (List.mem_append_left ys hx)
  rw [List.erase_append_right _ hp, List.erase_cons_head]

/-- A new node behind the last one. -/
theorem IsList.snoc (h : IsList next a (xs ++ [q])) (hp : p ≠ 0) (hq : next' q = p)
    (hpn : next' p = 0) (heq : ∀ x ∈ xs, next' x = next x) :
    IsList next' a (xs ++ [q, p]) := by
  obtain ⟨c, hseg, rfl, hq0, -⟩ := isSeg_append.mp h
  exact isSeg_append.mpr ⟨c, hseg.congr heq, rfl, hq0, hq, hp, hpn⟩

/-- The node behind `q` taken out of the list. -/
theorem IsList.erase_next (h : IsList next a (xs ++ q :: p :: ys)) (hq : next' q = next p)
    (heq : ∀ x ∈ xs ++ ys, next' x = next x) : IsList next' a (xs ++ q :: ys) := by
  obtain ⟨c, hseg, rfl, hq0, -, -, hrest⟩ := isSeg_append.mp h
  refine isSeg_append.mpr ⟨c, hseg.congr fun x hx => heq x (List.mem_append_left ys hx), rfl, hq0, ?_⟩
  rw [hq]
  exact hrest.congr fun x hx => heq x (List.mem_append_right xs hx)

end DosKernel.Lib
