import DosKernel.Lib.Accesses
import DosKernel.Lib.Quicksort
import DosKernel.Libc.Blocks

/-! `qsort`. The elements are blocks of bytes that are swapped through a block from `malloc`, and the
index behind which the next smaller element goes starts one place in front of the range. -/

namespace DosKernel.Libc

open Lib Access Blocks

/-! ### The code -/

/-- What stays the same during a call: the array, its elements and their comparison, and the address of
the block that `malloc` finds. -/
structure Qsort where
  cpu : Features
  base : ℕ
  size : UInt32
  compar : (Fin size.toNat → UInt8) → (Fin size.toNat → UInt8) → Int32
  malloc : Memory → ℕ

/-- The array, or the block that elements are swapped through. -/
inductive Block
  | array
  | temp

namespace Qsort

variable (q : Qsort)

def element (m : Memory) (offset : ℕ) : Fin q.size.toNat → UInt8 := fun i => m (q.base + offset + i)

def address (tmp : ℕ) : Block → ℕ
  | .array => q.base
  | .temp => tmp

/-- `memcpy` of an element, from and to offsets of the blocks. -/
def copy (tmp : ℕ) (destination source : Block × ℕ) (m : Memory) : Access Block Memory := do
  touch source.1 () source.2 q.size.toNat
  touch destination.1 () destination.2 q.size.toNat
  pure (memcpy q.cpu m (q.address tmp destination.1 + destination.2)
    (q.address tmp source.1 + source.2) q.size.toNat)

def swap (a b : ℕ) (m : Memory) : Access Block Memory := do
  let tmp := q.malloc m
  let m ← q.copy tmp (.temp, 0) (.array, a) m
  let m ← q.copy tmp (.array, a) (.array, b) m
  q.copy tmp (.array, b) (.temp, 0) m

def compareAt (a b : ℕ) (m : Memory) : Access Block Int32 := do
  touch .array () a q.size.toNat
  touch .array () b q.size.toNat
  pure (q.compar (q.element m a) (q.element m b))

def partitionLoop (last pivotIndex : UInt32) :
    (fuel : ℕ) → (i j : UInt32) → Memory → Access Block (UInt32 × Memory)
  | 0, _, _, _ => diverge
  | fuel + 1, i, j, m =>
    if j < last then do
      let cmp ← q.compareAt (j * q.size).toNat (pivotIndex * q.size).toNat m
      if cmp < 0 then do
        let m ← q.swap ((i + 1) * q.size).toNat (j * q.size).toNat m
        partitionLoop last pivotIndex fuel (i + 1) (j + 1) m
      else partitionLoop last pivotIndex fuel i (j + 1) m
    else pure (i, m)

def qsortInplace : (fuel : ℕ) → (start last : UInt32) → Memory → Access Block Memory
  | 0, _, _, _ => diverge
  | fuel + 1, start, last, m =>
    if last - start ≤ 1 then pure m
    else do
      let pivotIndex := last - 1
      let (i, m) ← q.partitionLoop (last - 1) pivotIndex word32 (start - 1) start m
      let m ← q.swap ((i + 1) * q.size).toNat (pivotIndex * q.size).toNat m
      let pivotIndex := i + 1
      let m ← qsortInplace fuel start pivotIndex m
      qsortInplace fuel (pivotIndex + 1) last m

/-- `qsort`. No range is longer than the array. -/
def qsort (num : UInt32) (m : Memory) : Access Block Memory := q.qsortInplace (word32 + 1) 0 num m

/-! ### Elements -/

def sizes (num : ℕ) : Block → ℕ
  | .array => num * q.size.toNat
  | .temp => q.size.toNat

/-- The array is a range of the memory, and `malloc` always finds a block outside of it. -/
structure Placed (num : ℕ) : Prop where
  array : q.base + num * q.size.toNat ≤ space
  temp : ∀ m, q.malloc m + q.size.toNat ≤ space
  apart : ∀ m, q.malloc m + q.size.toNat ≤ q.base ∨ q.base + num * q.size.toNat ≤ q.malloc m

/-- The memory outside of the array and of the blocks from `malloc` is as it was. -/
def Untouched (num : ℕ) (m m' : Memory) : Prop :=
  ∀ a, ¬ (q.base ≤ a ∧ a < q.base + num * q.size.toNat) →
    (∀ m, ¬ (q.malloc m ≤ a ∧ a < q.malloc m + q.size.toNat)) → m' a = m a

/-- The elements of the array. -/
def Holds (num : ℕ) (m : Memory) (a : ℕ → Fin q.size.toNat → UInt8) : Prop :=
  ∀ k < num, q.element m (k * q.size.toNat) = a k

variable {q} {num : ℕ} {m m' : Memory}

theorem Untouched.trans {m'' : Memory} (h : q.Untouched num m m') (h' : q.Untouched num m' m'') :
    q.Untouched num m m'' := fun a ha ha' => (h' a ha ha').trans (h a ha ha')

/-- An element ends inside the array. -/
theorem slot_le {k : ℕ} (hk : k < num) (size : ℕ) : k * size + size ≤ num * size := by
  have hle := Nat.mul_le_mul_right size (Nat.succ_le_of_lt hk)
  rwa [Nat.succ_mul] at hle

/-- The elements at two places have no byte in common. -/
theorem slot_apart {i j : ℕ} (h : i ≠ j) (size : ℕ) :
    i * size + size ≤ j * size ∨ j * size + size ≤ i * size := by
  rcases Nat.lt_or_gt_of_ne h with hlt | hgt
  · exact .inl (slot_le hlt size)
  · exact .inr (slot_le hgt size)

theorem copy_ensures (tmp : ℕ) (destination source : Block × ℕ) (Q : Memory → Prop) :
    Ensures (q.sizes num) (q.copy tmp destination source m) Q ↔
      source.2 + q.size.toNat ≤ q.sizes num source.1 ∧
      destination.2 + q.size.toNat ≤ q.sizes num destination.1 ∧
      Q (memcpy q.cpu m (q.address tmp destination.1 + destination.2)
        (q.address tmp source.1 + source.2) q.size.toNat) := by
  rw [copy, ensures_bind, ensures_touch, ensures_bind, ensures_touch, ensures_pure]

/-- What three copies through a block leave in the memory. -/
structure Exchanged (m m' : Memory) (x y tmp n : ℕ) : Prop where
  first : ∀ i < n, m' (x + i) = m (y + i)
  second : ∀ i < n, m' (y + i) = m (x + i)
  kept : ∀ a, ¬ (x ≤ a ∧ a < x + n) → ¬ (y ≤ a ∧ a < y + n) → ¬ (tmp ≤ a ∧ a < tmp + n) → m' a = m a

theorem copies_exchange (cpu : Features) (m : Memory) {x y tmp n : ℕ} (hx : x + n ≤ space)
    (hy : y + n ≤ space) (htmp : tmp + n ≤ space) (hxy : x = y ∨ x + n ≤ y ∨ y + n ≤ x)
    (hx' : tmp + n ≤ x ∨ x + n ≤ tmp) (hy' : tmp + n ≤ y ∨ y + n ≤ tmp) :
    Exchanged m (memcpy cpu (memcpy cpu (memcpy cpu m tmp x n) x y n) y tmp n) x y tmp n := by
  rw [memcpy_eq cpu htmp hx (by omega), memcpy_eq cpu hx hy (by omega), memcpy_eq cpu hy htmp (by omega)]
  have hsaved : Moved m (m.copy tmp x n) tmp x n := copy_moved htmp hx
  generalize m.copy tmp x n = m₁ at hsaved ⊢
  have hback : Moved m₁ (m₁.copy x y n) x y n := copy_moved hx hy
  generalize m₁.copy x y n = m₂ at hback ⊢
  have hforth : Moved m₂ (m₂.copy y tmp n) y tmp n := copy_moved hy htmp
  generalize m₂.copy y tmp n = m₃ at hforth ⊢
  constructor
  · intro i hi
    rcases hxy with rfl | hapart
    · rw [hforth.moved i hi, hback.kept _ (by omega), hsaved.moved i hi]
    · rw [hforth.kept _ (by omega), hback.moved i hi, hsaved.kept _ (by omega)]
  · intro i hi
    rw [hforth.moved i hi, hback.kept _ (by omega), hsaved.moved i hi]
  · intro a hxa hya hta
    rw [hforth.kept a hya, hback.kept a hxa, hsaved.kept a hta]

/-- `swap` exchanges two elements of the array. -/
theorem swap_ensures (h : q.Placed num) {i j : ℕ} (hi : i < num) (hj : j < num)
    {a : ℕ → Fin q.size.toNat → UInt8} (ha : q.Holds num m a) {Q : Memory → Prop}
    (hQ : ∀ m', q.Holds num m' (a ∘ Equiv.swap i j) → q.Untouched num m m' → Q m') :
    Ensures (q.sizes num) (q.swap (i * q.size.toNat) (j * q.size.toNat) m) Q := by
  have hi' := slot_le hi q.size.toNat
  have hj' := slot_le hj q.size.toNat
  have harray := h.array
  have htemp := h.temp m
  have hapart := h.apart m
  rw [swap, ensures_bind, copy_ensures]
  refine ⟨hi', (Nat.zero_add _).le, ?_⟩
  rw [ensures_bind, copy_ensures]
  refine ⟨hj', hi', ?_⟩
  rw [copy_ensures]
  refine ⟨(Nat.zero_add _).le, hj', ?_⟩
  simp only [address, Nat.add_zero]
  have hij : q.base + i * q.size.toNat = q.base + j * q.size.toNat ∨
      q.base + i * q.size.toNat + q.size.toNat ≤ q.base + j * q.size.toNat ∨
      q.base + j * q.size.toNat + q.size.toNat ≤ q.base + i * q.size.toNat := by
    by_cases hij : i = j
    · exact .inl (hij ▸ rfl)
    · have hslots := slot_apart hij q.size.toNat
      omega
  have hswap := copies_exchange q.cpu m (by omega) (by omega) htemp hij (by omega) (by omega)
  refine hQ _ (fun k hk => ?_) fun x hx hx' => ?_
  · rw [Function.comp_apply]
    rcases eq_or_ne k i with rfl | hki
    · rw [Equiv.swap_apply_left, ← ha j hj]
      exact funext fun b => hswap.first b b.isLt
    · rcases eq_or_ne k j with rfl | hkj
      · rw [Equiv.swap_apply_right, ← ha i hi]
        exact funext fun b => hswap.second b b.isLt
      · rw [Equiv.swap_apply_of_ne_of_ne hki hkj, ← ha k hk]
        funext b
        have hb := b.isLt
        have hk' := slot_le hk q.size.toNat
        have hslot := slot_apart hki q.size.toNat
        have hslot' := slot_apart hkj q.size.toNat
        exact hswap.kept _ (by omega) (by omega) (by omega)
  · exact hswap.kept x (by omega) (by omega) (hx' m)

theorem compareAt_ensures {i j : ℕ} (hi : i < num) (hj : j < num)
    {a : ℕ → Fin q.size.toNat → UInt8} (ha : q.Holds num m a) (Q : Int32 → Prop) :
    Ensures (q.sizes num) (q.compareAt (i * q.size.toNat) (j * q.size.toNat) m) Q ↔
      Q (q.compar (a i) (a j)) := by
  rw [compareAt, ensures_bind, ensures_touch, ensures_bind, ensures_touch, ensures_pure, ha i hi, ha j hj]
  exact ⟨fun h => h.2.2, fun h => ⟨slot_le hi _, slot_le hj _, h⟩⟩

theorem offset_toNat (harray : q.base + num * q.size.toNat ≤ space) {j : UInt32} (hj : j.toNat < num) :
    (j * q.size).toNat = j.toNat * q.size.toNat := by
  have hslot := slot_le hj q.size.toNat
  have hspace : space = 2 ^ 32 := rfl
  rw [UInt32.toNat_mul]
  rcases Nat.eq_zero_or_pos q.size.toNat with hzero | hpos
  · rw [hzero, Nat.mul_zero, Nat.zero_mod]
  · exact Nat.mod_eq_of_lt (by omega)

/-- An index below another one does not wrap when it is increased. -/
theorem succ_toNat {i last : UInt32} (h : i.toNat < last.toNat) : (i + 1).toNat = i.toNat + 1 := by
  rw [UInt32.toNat_add]
  exact Nat.mod_eq_of_lt (lt_of_le_of_lt h last.toNat_lt)

theorem length_lt_fuel (num : UInt32) : num.toNat - 0 < word32 + 1 :=
  lt_of_le_of_lt (Nat.sub_le _ _) (lt_trans num.toNat_lt (Nat.lt_succ_self _))

/-! ### The sort -/

def lt (q : Qsort) (x y : Fin q.size.toNat → UInt8) : Bool := q.compar x y < 0

theorem partitionLoop_ensures (h : q.Placed num) {fuel n : ℕ} {i j last : UInt32}
    {a : ℕ → Fin q.size.toNat → UInt8} (hfuel : n < fuel) (hij : (i + 1).toNat ≤ j.toNat)
    (hlast : j.toNat + n = last.toNat) (hnum : last.toNat < num) (ha : q.Holds num m a)
    {Q : UInt32 × Memory → Prop}
    (hQ : ∀ r : UInt32 × Memory,
      (r.1 + 1).toNat = (partitionFrom q.lt last.toNat n (i + 1).toNat j.toNat a).1 →
      q.Holds num r.2 (partitionFrom q.lt last.toNat n (i + 1).toNat j.toNat a).2 →
      q.Untouched num m r.2 → Q r) :
    Ensures (q.sizes num) (q.partitionLoop last last fuel i j m) Q := by
  induction fuel generalizing n i j m a with
  | zero => exact absurd hfuel (Nat.not_lt_zero n)
  | succ fuel ih =>
    rw [partitionLoop]
    cases n with
    | zero =>
      have hend : ¬ j < last := by
        rw [UInt32.lt_iff_toNat_lt]
        omega
      rw [if_neg hend, ensures_pure]
      exact hQ _ rfl ha fun x _ _ => rfl
    | succ n =>
      have hjlast : j.toNat < last.toNat := by omega
      have hnext : (j + 1).toNat = j.toNat + 1 := succ_toNat hjlast
      rw [if_pos (UInt32.lt_iff_toNat_lt.mpr hjlast), offset_toNat h.array (by omega), offset_toNat h.array hnum,
        ensures_bind, compareAt_ensures (by omega) hnum ha, ensures_ite]
      rw [partitionFrom] at hQ
      split_ifs with hcmp
      · have hfront : (i + 1 + 1).toNat = (i + 1).toNat + 1 := succ_toNat (hij.trans_lt hjlast)
        rw [if_pos (by rw [lt]; exact decide_eq_true hcmp), ← hfront, ← hnext] at hQ
        rw [offset_toNat h.array (by omega), ensures_bind]
        refine swap_ensures h (by omega) (by omega) ha fun m' ha' hm' => ?_
        exact ih (by omega) (by omega) (by omega) ha' fun r hr hr' hr'' =>
          hQ r hr hr' (hm'.trans hr'')
      · rw [if_neg (by rw [lt]; exact fun hlt => hcmp (of_decide_eq_true hlt)), ← hnext] at hQ
        exact ih (by omega) (by omega) (by omega) ha hQ

theorem qsortInplace_ensures (h : q.Placed num) {fuel : ℕ} {start last : UInt32}
    {a : ℕ → Fin q.size.toNat → UInt8} (hfuel : last.toNat - start.toNat < fuel)
    (hle : start.toNat ≤ last.toNat) (hnum : last.toNat ≤ num) (ha : q.Holds num m a)
    {Q : Memory → Prop}
    (hQ : ∀ m', q.Holds num m' (quicksort q.lt fuel start.toNat last.toNat a) →
      q.Untouched num m m' → Q m') :
    Ensures (q.sizes num) (q.qsortInplace fuel start last m) Q := by
  induction fuel generalizing start last m a Q with
  | zero => exact absurd hfuel (Nat.not_lt_zero _)
  | succ fuel ih =>
    have hlength : (last - start).toNat = last.toNat - start.toNat :=
      UInt32.toNat_sub_of_le _ _ (UInt32.le_iff_toNat_le.mpr hle)
    have hshort : last - start ≤ 1 ↔ last.toNat - start.toNat ≤ 1 := by
      rw [UInt32.le_iff_toNat_le, hlength]
      rfl
    rw [qsortInplace, ensures_ite, if_congr hshort rfl rfl]
    rw [quicksort] at hQ
    split_ifs at hQ ⊢ with hone
    · rw [ensures_pure]
      exact hQ m ha fun x _ _ => rfl
    · have hpivot : (last - 1).toNat = last.toNat - 1 :=
        UInt32.toNat_sub_of_le _ _ (UInt32.le_iff_toNat_le.mpr (by change 1 ≤ last.toNat; omega))
      have hbound := last.toNat_lt
      obtain ⟨k, b, hpartition, hlo, hhi, -⟩ :=
        partition_places q.lt a (show start.toNat < last.toNat by omega)
      rw [hpartition] at hQ
      dsimp only at hQ ⊢
      rw [ensures_bind]
      refine partitionLoop_ensures (n := last.toNat - 1 - start.toNat) h ?_ ?_ ?_ ?_ ha ?_
      · exact lt_of_lt_of_le (by omega : _ < last.toNat) hbound.le
      · rw [UInt32.sub_add_cancel]
      · omega
      · omega
      rintro ⟨i, m₁⟩ hi hm₁ hkept₁
      rw [UInt32.sub_add_cancel, hpivot, hpartition] at hi hm₁
      dsimp only at hi hm₁ hkept₁ ⊢
      have hnext : (i + 1 + 1).toNat = k + 1 := by
        rw [succ_toNat (hi ▸ hhi), hi]
      rw [offset_toNat h.array (by omega), offset_toNat h.array (by omega), ensures_bind, hpivot, hi]
      refine swap_ensures h (by omega) (by omega) hm₁ fun m₂ hm₂ hkept₂ => ?_
      rw [ensures_bind]
      refine ih (by omega) (by omega) (by omega) hm₂ fun m₃ hm₃ hkept₃ => ?_
      refine ih (by omega) (by omega) hnum hm₃ fun m₄ hm₄ hkept₄ => ?_
      rw [hnext, hi] at hm₄
      exact hQ m₄ hm₄ (((hkept₁.trans hkept₂).trans hkept₃).trans hkept₄)

end Qsort

/-- A comparison whose sign tells which of two elements comes first. -/
structure TotalPreorder {α : Type*} (compar : α → α → Int32) : Prop where
  swap : ∀ x y, 0 < compar x y ↔ compar y x < 0
  trans : ∀ x y z, compar x y ≤ 0 → compar y z ≤ 0 → compar x z ≤ 0

theorem TotalPreorder.le_iff {α : Type*} {compar : α → α → Int32} (h : TotalPreorder compar) (x y : α) :
    compar y x ≤ 0 ↔ 0 ≤ compar x y := by
  rw [← Int32.not_lt, ← Int32.not_lt, h.swap]

theorem TotalPreorder.refl {α : Type*} {compar : α → α → Int32} (h : TotalPreorder compar) (x : α) :
    compar x x = 0 := by
  have hle : compar x x ≤ 0 := by
    rw [← Int32.not_lt]
    exact fun hlt => Int32.lt_asymm hlt ((h.swap x x).mp hlt)
  exact Int32.le_antisymm hle ((h.le_iff x x).mp hle)

namespace Qsort

variable {q : Qsort}

theorem lt_eq_false (h : TotalPreorder q.compar) (x y : Fin q.size.toNat → UInt8) :
    q.lt y x = false ↔ q.compar x y ≤ 0 := by
  rw [lt, decide_eq_false_iff_not, Int32.not_lt, h.le_iff]

theorem isStrictWeak (h : TotalPreorder q.compar) : IsStrictWeak q.lt where
  asymm x y hxy := by
    rw [lt_eq_false h]
    exact Int32.le_of_lt (of_decide_eq_true hxy)
  trans x y z hxy hyz := by
    rw [lt_eq_false h] at *
    exact h.trans x y z hxy hyz

def Ordered (q : Qsort) (num : ℕ) (m : Memory) : Prop :=
  ∀ i j, i < j → j < num →
    q.compar (q.element m (i * q.size.toNat)) (q.element m (j * q.size.toNat)) ≤ 0

/-- The elements are the same as before and stand in order, and nothing else has changed. -/
structure Sorted (q : Qsort) (num : ℕ) (m m' : Memory) : Prop where
  permuted : ∃ σ : Equiv.Perm ℕ, (∀ k, ¬ k < num → σ k = k) ∧
    ∀ k < num, q.element m' (k * q.size.toNat) = q.element m (σ k * q.size.toNat)
  ordered : q.Ordered num m'
  kept : q.Untouched num m m'

theorem qsort_ensures (hcompar : TotalPreorder q.compar) {num : UInt32} (h : q.Placed num.toNat)
    (m : Memory) :
    Ensures (q.sizes num.toNat) (q.qsort num m) (q.Sorted num.toNat m) := by
  refine qsortInplace_ensures h (a := fun k => q.element m (k * q.size.toNat)) ?_ (Nat.zero_le _)
    le_rfl (fun k _ => rfl) fun m' hm' hkept => ?_
  · exact length_lt_fuel num
  have hsort := quicksort_spec (isStrictWeak hcompar) (length_lt_fuel num).le fun k => q.element m (k * q.size.toNat)
  change q.Holds num.toNat m' (quicksort q.lt _ 0 _ _) at hm'
  obtain ⟨⟨σ, hσ, hperm⟩, hsorted⟩ := hsort
  refine ⟨⟨σ, fun k hk => hσ k fun hin => hk hin.2, fun k hk => ?_⟩, fun i j hij hj => ?_, hkept⟩
  · rw [hm' k hk, hperm, Function.comp_apply]
  · rw [hm' i (hij.trans hj), hm' j hj, ← lt_eq_false hcompar]
    exact hsorted i j (Nat.zero_le i) hij hj

/-- `qsort` ends, stays inside the array and sorts it. -/
theorem qsort_sorts (q : Qsort) (hcompar : TotalPreorder q.compar) {num : UInt32}
    (h : q.Placed num.toNat) (m : Memory) :
    Ensures (q.sizes num.toNat) (q.qsort num m) (q.Sorted num.toNat m) :=
  qsort_ensures hcompar h m

def compareBytes (x y : Fin (1 : UInt32).toNat → UInt8) : Int32 :=
  if x ⟨0, by decide⟩ < y ⟨0, by decide⟩ then -1
  else if y ⟨0, by decide⟩ < x ⟨0, by decide⟩ then 1
  else 0

theorem compareBytes_neg (x y) : compareBytes x y < 0 ↔ x ⟨0, by decide⟩ < y ⟨0, by decide⟩ := by
  unfold compareBytes
  split_ifs with h h'
  · exact iff_of_true (by decide) h
  · exact iff_of_false (by decide) h
  · exact iff_of_false (by decide) h

theorem compareBytes_pos (x y) : 0 < compareBytes x y ↔ y ⟨0, by decide⟩ < x ⟨0, by decide⟩ := by
  unfold compareBytes
  split_ifs with h h'
  · exact iff_of_false (by decide) (UInt8.lt_asymm h)
  · exact iff_of_true (by decide) h'
  · exact iff_of_false (by decide) h'

theorem compareBytes_totalPreorder : TotalPreorder compareBytes where
  swap x y := by rw [compareBytes_pos, compareBytes_neg]
  trans x y z hxy hyz := by
    rw [← Int32.not_lt, compareBytes_pos, UInt8.not_lt] at *
    exact UInt8.le_trans hxy hyz

/-- Three bytes at `0x200`. -/
def threeBytes : Qsort where
  cpu := ⟨true, true⟩
  base := 0x200
  size := 1
  compar := compareBytes
  malloc _ := 0x100

theorem threeBytes_placed : threeBytes.Placed (3 : UInt32).toNat where
  array := by decide
  temp _ := (by decide : 0x100 + (1 : UInt32).toNat ≤ space)
  apart _ := .inl (by decide : 0x100 + (1 : UInt32).toNat ≤ 0x200)

theorem qsort_sorts_bytes :
    Ensures (threeBytes.sizes 3) (threeBytes.qsort 3 fun a => UInt8.ofNat (0x202 - a))
      (threeBytes.Sorted 3 fun a => UInt8.ofNat (0x202 - a)) :=
  qsort_sorts threeBytes compareBytes_totalPreorder threeBytes_placed _

end Qsort

end DosKernel.Libc
