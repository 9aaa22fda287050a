import Mathlib.Data.List.Basic
import Mathlib.Tactic

/-! Trees of pointers in blocks. A block of level 0 holds pointers to the data, a block of a
higher level pointers to blocks of the level below; every block has room for `n` of them, and
0 points nowhere. `leaves` is the traversal that goes on to the next block at the first
pointer that is 0, `lookup` follows the digits of a position. -/

namespace DosKernel.Lib.PointerTree

/-- The data pointers that the traversal finds below a block. -/
def leaves (children : ℕ → List ℕ) : (level p : ℕ) → List ℕ
  | 0, p => (children p).takeWhile (· ≠ 0)
  | level + 1, p => ((children p).takeWhile (· ≠ 0)).flatMap (leaves children level)

/-- The data pointer at a position; `entry p i` is the pointer `i` of the block `p`. -/
def lookup (n : ℕ) (entry : ℕ → ℕ → ℕ) : (level p k : ℕ) → ℕ
  | 0, p, k => if p = 0 then 0 else entry p k
  | level + 1, p, k =>
    if p = 0 then 0
    else lookup n entry level (entry p (k / n ^ (level + 1))) (k % n ^ (level + 1))

def path (n : ℕ) (entry : ℕ → ℕ → ℕ) : (level p k : ℕ) → List ℕ
  | 0, p, _ => [p]
  | level + 1, p, k =>
    p :: path n entry level (entry p (k / n ^ (level + 1))) (k % n ^ (level + 1))

section Lists

theorem getElem?_takeWhile {α : Type*} {p : α → Bool} {l : List α} {k : ℕ}
    (h : ∀ i ≤ k, ∃ a, l[i]? = some a ∧ p a = true) : (l.takeWhile p)[k]? = l[k]? := by
  induction l generalizing k with
  | nil => rfl
  | cons a l ih =>
    obtain ⟨b, hb, hp⟩ := h 0 (Nat.zero_le _)
    obtain rfl : a = b := by simpa using hb
    rw [List.takeWhile_cons_of_pos hp]
    cases k with
    | zero => rfl
    | succ k => simpa using ih fun i hi => by simpa using h (i + 1) (by omega)

theorem takeWhile_getElem? {xs : List ℕ} {k : ℕ} (h : ∀ i ≤ k, ∃ a, xs[i]? = some a ∧ a ≠ 0) :
    (xs.takeWhile (· ≠ 0))[k]? = xs[k]? := by
  refine getElem?_takeWhile fun i hi => ?_
  obtain ⟨a, ha, hne⟩ := h i hi
  exact ⟨a, ha, by simpa using hne⟩

/-- Whole lists of `m` values, up to the one that holds the position. -/
theorem flatMap_getElem? {g : ℕ → List ℕ} {xs : List ℕ} {m q r x a : ℕ} (hq : xs[q]? = some x)
    (hfull : ∀ i < q, ∀ y, xs[i]? = some y → (g y).length = m) (hr : (g x)[r]? = some a) :
    (xs.flatMap g)[q * m + r]? = some a := by
  induction xs generalizing q with
  | nil => simp at hq
  | cons y xs ih =>
    rw [List.flatMap_cons]
    cases q with
    | zero =>
      obtain rfl : y = x := by simpa using hq
      rw [Nat.zero_mul, Nat.zero_add, List.getElem?_append_left (List.getElem?_eq_some_iff.mp hr).1, hr]
    | succ q =>
      have hy := hfull 0 (Nat.succ_pos q) y rfl
      have hrest := ih (q := q) (by simpa using hq) fun i hi z hz => hfull (i + 1) (by omega) z
        (by simpa using hz)
      rw [List.getElem?_append_right (by rw [hy, Nat.succ_mul]; omega), hy,
        show (q + 1) * m + r - m = q * m + r by rw [Nat.succ_mul]; omega, hrest]

theorem flatMap_length_le {g : ℕ → List ℕ} {xs : List ℕ} {m : ℕ} (h : ∀ x, (g x).length ≤ m) :
    (xs.flatMap g).length ≤ xs.length * m := by
  induction xs with
  | nil => simp
  | cons x xs ih =>
    have hx := h x
    rw [List.flatMap_cons, List.length_append, List.length_cons, Nat.succ_mul]
    omega

end Lists

section Tree
variable {n : ℕ} {children : ℕ → List ℕ} {entry : ℕ → ℕ → ℕ} {level p k : ℕ}

/-- The children of the blocks on the way are the entries. -/
def Faithful (n : ℕ) (children : ℕ → List ℕ) (entry : ℕ → ℕ → ℕ) (level p k : ℕ) : Prop :=
  ∀ q ∈ path n entry level p k, children q = (List.range n).map (entry q)

theorem lookup_zero (n : ℕ) (entry : ℕ → ℕ → ℕ) (level k : ℕ) : lookup n entry level 0 k = 0 := by
  cases level <;> exact if_pos rfl

theorem leaves_length_le (hlen : ∀ q, (children q).length ≤ n) (level p : ℕ) :
    (leaves children level p).length ≤ n ^ (level + 1) := by
  have htake : ∀ q, ((children q).takeWhile (· ≠ 0)).length ≤ n := fun q =>
    (List.takeWhile_prefix _).length_le.trans (hlen q)
  induction level generalizing p with
  | zero =>
    rw [leaves, Nat.zero_add, Nat.pow_one]
    exact htake p
  | succ level ih =>
    rw [leaves, Nat.pow_succ, Nat.mul_comm]
    exact (flatMap_length_le ih).trans (Nat.mul_le_mul_right _ (htake p))

/-- A position that leads to data is found in its place, if all the ones before it do too. -/
theorem leaves_getElem? (hlen : ∀ q, (children q).length ≤ n) (hk : k < n ^ (level + 1))
    (h : ∀ i ≤ k, lookup n entry level p i ≠ 0 ∧ Faithful n children entry level p i) :
    (leaves children level p)[k]? = some (lookup n entry level p k) := by
  have hp : p ≠ 0 := fun hp => (h 0 (Nat.zero_le _)).1 (hp ▸ lookup_zero n entry level 0)
  induction level generalizing p k with
  | zero =>
    have hchildren : children p = (List.range n).map (entry p) :=
      (h 0 (Nat.zero_le _)).2 p (by simp [path])
    rw [Nat.zero_add, Nat.pow_one] at hk
    have hget : ∀ i ≤ k, ((List.range n).map (entry p))[i]? = some (lookup n entry 0 p i) := by
      intro i hi
      rw [List.getElem?_map, List.getElem?_range (by omega), lookup, if_neg hp]
      rfl
    rw [leaves, hchildren, takeWhile_getElem? fun i hi => ⟨_, hget i hi, (h i hi).1⟩, hget k le_rfl]
  | succ level ih =>
    have hchildren : children p = (List.range n).map (entry p) :=
      (h 0 (Nat.zero_le _)).2 p (by simp [path])
    generalize hm : n ^ (level + 1) = m at ih
    have hkm : k < n * m := by rwa [← hm, Nat.mul_comm, ← Nat.pow_succ]
    have hpos : 0 < m := by
      by_contra h0
      rw [Nat.eq_zero_of_not_pos h0] at hkm
      omega
    have hq : k / m < n := (Nat.div_lt_iff_lt_mul hpos).mpr hkm
    -- position `r` below the child `q` is position `q * m + r`
    have hbelow : ∀ q r, r < m → q * m + r ≤ k →
        lookup n entry level (entry p q) r ≠ 0 ∧ Faithful n children entry level (entry p q) r := by
      intro q r hr hle
      have hdiv : (q * m + r) / m = q := by
        rw [Nat.mul_comm, Nat.mul_add_div hpos, Nat.div_eq_of_lt hr, Nat.add_zero]
      have hmod : (q * m + r) % m = r := by
        rw [Nat.mul_comm, Nat.mul_add_mod, Nat.mod_eq_of_lt hr]
      obtain ⟨hne, hfaith⟩ := h _ hle
      rw [lookup, if_neg hp, hm, hdiv, hmod] at hne
      refine ⟨hne, fun q' hq' => hfaith q' ?_⟩
      rw [path, hm, hdiv, hmod]
      exact List.mem_cons_of_mem _ hq'
    have hchild : ∀ q ≤ k / m, entry p q ≠ 0 := by
      intro q hq h0
      have hle : q * m + 0 ≤ k := by
        rw [Nat.add_zero]
        exact (Nat.le_div_iff_mul_le hpos).mp hq
      exact (hbelow q 0 hpos hle).1 (h0 ▸ lookup_zero n entry level 0)
    have hget : ∀ i ≤ k / m, ((children p).takeWhile (· ≠ 0))[i]? = some (entry p i) := by
      have hentry : ∀ i ≤ k / m, (children p)[i]? = some (entry p i) := by
        intro i hi
        rw [hchildren, List.getElem?_map, List.getElem?_range (by omega)]
        rfl
      intro i hi
      rw [takeWhile_getElem? fun j hj => ⟨_, hentry j (hj.trans hi), hchild j (hj.trans hi)⟩,
        hentry i hi]
    have hkdiv := Nat.div_add_mod k m
    rw [Nat.mul_comm] at hkdiv
    have hmod := Nat.mod_lt k hpos
    -- the children before the last one are full
    have hfull : ∀ i < k / m, ∀ y, ((children p).takeWhile (· ≠ 0))[i]? = some y →
        (leaves children level y).length = m := by
      intro i hi y hy
      obtain rfl : entry p i = y := Option.some.inj ((hget i hi.le).symm.trans hy)
      have hle : (i + 1) * m ≤ k / m * m := Nat.mul_le_mul_right m hi
      rw [Nat.succ_mul] at hle
      have hlast := ih (k := m - 1) (p := entry p i) (by omega)
        (fun r hr => hbelow i r (by omega) (by omega)) (hchild i hi.le)
      have hlt := (List.getElem?_eq_some_iff.mp hlast).1
      have htop := leaves_length_le hlen level (entry p i)
      omega
    have hlast := ih (k := k % m) (p := entry p (k / m)) hmod
      (fun r hr => hbelow _ r (by omega) (by omega)) (hchild _ le_rfl)
    have hfound := flatMap_getElem? (g := leaves children level) (hget _ le_rfl) hfull hlast
    rw [hkdiv] at hfound
    rw [leaves, hfound, lookup, if_neg hp, hm]

/-- A tree without gaps is as long as it can be. -/
theorem leaves_length (hn : 0 < n) (hlen : ∀ q, (children q).length ≤ n)
    (h : ∀ i < n ^ (level + 1),
      lookup n entry level p i ≠ 0 ∧ Faithful n children entry level p i) :
    (leaves children level p).length = n ^ (level + 1) := by
  have hpos : 0 < n ^ (level + 1) := Nat.pow_pos hn
  have hlast := leaves_getElem? (k := n ^ (level + 1) - 1) hlen (by omega)
    fun i hi => h i (by omega)
  have hlt := (List.getElem?_eq_some_iff.mp hlast).1
  have htop := leaves_length_le hlen level p
  omega

end Tree

end DosKernel.Lib.PointerTree
