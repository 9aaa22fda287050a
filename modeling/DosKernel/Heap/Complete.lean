import DosKernel.Heap.Invariant

/-! When `heap_alloc` finds room. The search of a block starts behind `lfb`, wraps once and
stops where it comes to `lfb` again, so that the cells from `lfb` on are the one run it does
not look at. -/

namespace DosKernel

namespace HeapBlock

/-- The `n` cells from `x` on are free. -/
def FreeAt (hb : HeapBlock) (n x : ℕ) : Prop :=
  ∀ i < n, x + i < hb.blockCount ∧ hb.marks (x + i) = 0

instance (hb : HeapBlock) (n x : ℕ) : Decidable (hb.FreeAt n x) :=
  inferInstanceAs (Decidable (∀ i < n, x + i < hb.blockCount ∧ hb.marks (x + i) = 0))

def HasRun (hb : HeapBlock) (n : ℕ) : Prop := ∃ x, hb.FreeAt n x

end HeapBlock

/-! ### The search -/

section Search
variable {hb : HeapBlock} {n x x₀ : ℕ}

/-- Fewer free cells were counted than wanted: the cell behind them is not free. -/
theorem countFree_stop (fuel : ℕ) : ∀ y, countFree hb x fuel y < y + fuel →
    ¬ (x + countFree hb x fuel y < hb.blockCount ∧ hb.marks (x + countFree hb x fuel y) = 0) := by
  induction fuel with
  | zero => intro y h; simp [countFree] at h
  | succ fuel ih =>
    intro y h
    rw [countFree] at h ⊢
    split_ifs at h ⊢ with hfree
    · exact ih (y + 1) (by omega)
    · exact hfree

theorem countFree_le (fuel : ℕ) : ∀ y, countFree hb x fuel y ≤ y + fuel := by
  induction fuel with
  | zero => intro y; simp [countFree]
  | succ fuel ih =>
    intro y
    rw [countFree]
    split_ifs
    · have := ih (y + 1)
      omega
    · omega

/-- A run that starts behind the cursor starts behind the free cells at the cursor, when
these are too few. -/
theorem HeapBlock.FreeAt.behind (h : hb.FreeAt n x₀) (hx : x ≤ x₀)
    (hfew : countFree hb x n 0 ≠ n) : x + countFree hb x n 0 < x₀ := by
  have hle : countFree hb x n 0 ≤ 0 + n := countFree_le n 0
  by_contra hge
  have hstop : ¬ (x + countFree hb x n 0 < hb.blockCount ∧ hb.marks (x + countFree hb x n 0) = 0) :=
    countFree_stop n 0 (by omega)
  have hcell := h (x + countFree hb x n 0 - x₀) (by omega)
  rw [show x₀ + (x + countFree hb x n 0 - x₀) = x + countFree hb x n 0 by omega] at hcell
  exact hstop hcell

theorem one_le_countFree (hn : 1 ≤ n) (hx : x < hb.blockCount) (hfree : hb.marks x = 0) :
    1 ≤ countFree hb x n 0 := by
  obtain ⟨n, rfl⟩ : ∃ m, n = m + 1 := ⟨n - 1, by omega⟩
  rw [countFree, if_pos ⟨by omega, by simpa using hfree⟩]
  exact (countFree_spec hb x n 1).1

/-- One round of the search at a cursor inside the block, before `lfb` or behind it. -/
theorem heapScan_inside (fuel : ℕ) (wrapped : Bool) (hlfb : x ≠ hb.lfb) (hx : x < hb.blockCount) :
    heapScan hb n (fuel + 1) x wrapped =
      if hb.marks x = 0 then
        if countFree hb x n 0 = n then some x
        else heapScan hb n fuel (x + countFree hb x n 0) wrapped
      else heapScan hb n fuel (x + 1) wrapped := by
  have hin : ¬ hb.blockCount ≤ x := by omega
  rw [heapScan, if_neg hlfb, if_neg fun h => hin h.1]
  simp only [if_neg hin, decide_eq_false hin, Bool.or_false]

/-- A run ahead is found when `lfb` is not on the way. -/
theorem heapScan_ahead (hn : 1 ≤ n) (h : hb.FreeAt n x₀) (wrapped : Bool) (fuel : ℕ) :
    ∀ x, x ≤ x₀ → (hb.lfb < x ∨ x₀ < hb.lfb) → x₀ < x + fuel →
      heapScan hb n fuel x wrapped ≠ none := by
  have hx₀ := h 0 (by omega)
  rw [Nat.add_zero] at hx₀
  induction fuel with
  | zero => intro x hx _ hfuel; omega
  | succ fuel ih =>
    intro x hx hway hfuel
    rw [heapScan_inside fuel wrapped (by omega) (by omega)]
    split_ifs with hfree hcount
    · simp
    · have hbehind := h.behind hx hcount
      have hpos := one_le_countFree hn (by omega) hfree
      exact ih _ (by omega) (by omega) (by omega)
    · have hne : x ≠ x₀ := fun he => hfree (he ▸ hx₀.2)
      exact ih _ (by omega) (by omega) (by omega)

/-- A run before `lfb` is found after the search has wrapped. -/
theorem heapScan_wrap (hn : 1 ≤ n) (h : hb.FreeAt n x₀) (hway : x₀ < hb.lfb) (fuel : ℕ) :
    ∀ x, hb.lfb < x → hb.blockCount - x + x₀ < fuel → heapScan hb n fuel x false ≠ none := by
  have hx₀ := h 0 (by omega)
  induction fuel with
  | zero => intro x _ hfuel; omega
  | succ fuel ih =>
    intro x hx hfuel
    by_cases hin : x < hb.blockCount
    · rw [heapScan_inside fuel false (by omega) hin]
      split_ifs with hfree hcount
      · simp
      · have hpos := one_le_countFree hn hin hfree
        exact ih _ (by omega) (by omega)
      · exact ih _ (by omega) (by omega)
    · -- the round at the end of the block is the round at its first cell
      have hwrap : heapScan hb n (fuel + 1) x false = heapScan hb n (fuel + 1) 0 true := by
        have hout : hb.blockCount ≤ x := by omega
        rw [heapScan_inside fuel true (by omega) (by omega), heapScan, if_neg (by omega),
          if_neg (by simp)]
        simp only [if_pos hout, decide_eq_true hout, Bool.or_true]
      rw [hwrap]
      exact heapScan_ahead hn h true _ 0 (by omega) (.inr hway) (by omega)

/-- The search of `heap_alloc` finds every run but the one at `lfb`. -/
theorem heapScan_complete (hn : 1 ≤ n) (h : hb.FreeAt n x₀) (hne : x₀ ≠ hb.lfb) :
    heapScan hb n (2 * hb.blockCount + 2)
      (if hb.blockCount ≤ hb.lfb + 1 then 0 else hb.lfb + 1) false ≠ none := by
  have hx₀ := h 0 (by omega)
  rcases Nat.lt_or_gt_of_ne hne with hlt | hgt
  · split_ifs with hend
    · exact heapScan_ahead hn h false _ 0 (by omega) (.inr hlt) (by omega)
    · exact heapScan_wrap hn h hlt _ _ (by omega) (by omega)
  · rw [if_neg (by omega)]
    exact heapScan_ahead hn h false _ _ (by omega) (.inl (by omega)) (by omega)

theorem heapScan_ne_lfb (hzero : hb.marks 0 ≠ 0) (fuel : ℕ) : ∀ x wrapped r,
    heapScan hb n fuel x wrapped = some r → r ≠ hb.lfb := by
  induction fuel with
  | zero => intro x wrapped r h; simp [heapScan] at h
  | succ fuel ih =>
    intro x wrapped r h
    rw [heapScan] at h
    split at h
    · cases h
    next hlfb =>
    split at h
    · cases h
    dsimp only at h
    have hcursor : hb.marks (if hb.blockCount ≤ x then 0 else x) = 0 →
        (if hb.blockCount ≤ x then 0 else x) ≠ hb.lfb := by
      intro hfree
      split_ifs at hfree ⊢
      · exact absurd hfree hzero
      · exact hlfb
    generalize (if hb.blockCount ≤ x then 0 else x) = x' at h hcursor
    split at h
    next hfree =>
      split at h
      · exact Option.some.inj h ▸ hcursor hfree
      · exact ih _ _ _ h
    · exact ih _ _ _ h

end Search

/-! ### One block -/

section Block
variable {hb : HeapBlock} {size : ℕ} {peek : ℕ → UInt8}

/-- A run and the cells in use fit into the block. -/
theorem HeapBlock.FreeAt.taken_le {n x : ℕ} (h : hb.FreeAt n x) :
    hb.taken.card + n ≤ hb.blockCount := by
  have hdisjoint : Disjoint hb.taken (Finset.Ico x (x + n)) := by
    rw [Finset.disjoint_left]
    intro i hi hin
    rw [Finset.mem_Ico] at hin
    have hcell := h (i - x) (by omega)
    rw [show x + (i - x) = i by omega] at hcell
    exact (Finset.mem_filter.mp hi).2 hcell.2
  have hsub : hb.taken ∪ Finset.Ico x (x + n) ⊆ Finset.range hb.blockCount := by
    refine Finset.union_subset (Finset.filter_subset _ _) fun i hi => ?_
    rw [Finset.mem_Ico] at hi
    have hcell := h (i - x) (by omega)
    rw [show x + (i - x) = i by omega] at hcell
    exact Finset.mem_range.mpr hcell.1
  have hcard := Finset.card_le_card hsub
  rwa [Finset.card_union_of_disjoint hdisjoint, Nat.card_Ico, Nat.add_sub_cancel_left,
    Finset.card_range] at hcard

/-- A block gives room exactly if it has a run that does not start at `lfb`. -/
theorem heapAllocBlock_eq_none_iff (hblock : hb.blockSize = 16) (hlt : hb.size < word32)
    (hzero : hb.marks 0 ≠ 0) (hused : hb.used = hb.taken.card) (hsize : 1 ≤ size) :
    heapAllocBlock peek hb size = none ↔
      ∀ x, hb.FreeAt (divUp size 16) x → x = hb.lfb := by
  have hn : 1 ≤ divUp size 16 := by rw [divUp_sixteen]; omega
  constructor
  · intro hnone x hfree
    by_contra hne
    have hfits : ¬ (hb.size + word32 - hb.used * hb.blockSize % word32) % word32 < size := by
      have hle := hfree.taken_le
      have hcount : hb.blockCount = hb.size / 16 := by rw [HeapBlock.blockCount, hblock]
      rw [hblock, hused]
      rw [divUp_sixteen] at hle
      simp only [word32] at *
      omega
    have hscan := heapScan_complete hn hfree hne
    rw [heapAllocBlock, if_neg hfits, hblock] at hnone
    dsimp only at hnone
    split at hnone
    next h => exact hscan h
    next => cases hnone
  · intro hall
    rw [heapAllocBlock]
    split
    · rfl
    · rw [hblock]
      dsimp only
      split
      next => rfl
      next x hscan =>
        have hfree := heapScan_spec hb _ _ _ _ _ hscan
        exact absurd (hall x hfree) (heapScan_ne_lfb hzero _ _ _ _ hscan)

/-- `heap_alloc` returns `NULL` when no block gives room. -/
theorem heapAlloc_eq_zero_iff (h : Heap)
    (hptr : ∀ hb ∈ h, ∀ r, heapAllocBlock peek hb size = some r → r.1 ≠ 0) :
    (heapAlloc peek h size).1 = 0 ↔ ∀ hb ∈ h, heapAllocBlock peek hb size = none := by
  induction h with
  | nil => simp [heapAlloc]
  | cons hb h ih =>
    rw [List.forall_mem_cons] at hptr ⊢
    rw [heapAlloc]
    cases hblock : heapAllocBlock peek hb size with
    | none => simpa using ih hptr.2
    | some r => simpa using hptr.1 r hblock

end Block

/-! ### Runs -/

/-- The marks are those of the live allocations and of others: an allocation in the last
block of the address space keeps its marks when it is freed. -/
def HeapKept (s : HeapState) : Prop := ∃ held, HeapMarks ⟨s.heap, held⟩ ∧ s.live.Subperm held

theorem HeapKept.step {s s' : HeapState} {o : HeapOp} (h : HeapKept s)
    (hs : heapStep s o = some s') : HeapKept s' := by
  obtain ⟨held, hm, hlive⟩ := h
  cases o with
  | addBlock addr size =>
    rw [heapStep] at hs
    split_ifs at hs with hif
    obtain rfl := Option.some.inj hs
    exact ⟨held, hm.addBlock hif.1 hif.2.1 hif.2.2.1 (List.all_eq_true.mp hif.2.2.2), hlive⟩
  | alloc peek size =>
    rw [heapStep] at hs
    split_ifs at hs with hsize
    obtain rfl := Option.some.inj hs
    rcases hm.heapAlloc_spec peek (Nat.pos_of_ne_zero hsize) with
      h0 | ⟨l, hb, r, hb', x, v, p, hheap, heq, -, hne, hm'⟩
    · simp only at h0
      simp only [h0, if_true]
      exact ⟨held, hm, hlive⟩
    · simp only at heq
      simp only [heq, if_neg hne]
      exact ⟨_, hm', (List.subperm_cons _).mpr hlive⟩
  | free a =>
    rw [heapStep] at hs
    split_ifs at hs with ha
    obtain rfl := Option.some.inj hs
    rcases hm.heapFree_cases (hlive.subset ha) with
      ⟨l, hb, r, hb', x, hheap, hfree, hx, hr, hused⟩ | ⟨hfree, -⟩
    · simp only at hfree
      rw [hfree]
      exact ⟨held.erase a, hm.free hheap (hlive.subset ha) hx hr hused, hlive.erase a⟩
    · simp only at hfree
      rw [hfree]
      exact ⟨held, hm, (List.erase_subperm a s.live).trans hlive⟩

theorem heapKept_of_run {ops : List HeapOp} {s : HeapState}
    (hrun : Lib.Run heapStep Lib.Anything { heap := heapInit, live := [] } ops s) : HeapKept s :=
  hrun.invariant (fun _ _ _ h _ hs => HeapKept.step h hs) ⟨[], HeapMarks.init, List.Subperm.refl _⟩

theorem HeapKept.alloc_eq_zero_iff {s : HeapState} (h : HeapKept s) (peek : ℕ → UInt8) {size : ℕ}
    (hsize : 1 ≤ size) : (heapAlloc peek s.heap size).1 = 0 ↔
      ∀ hb ∈ s.heap, ∀ x, hb.FreeAt (divUp size 16) x → x = hb.lfb := by
  obtain ⟨held, hm, -⟩ := h
  rw [heapAlloc_eq_zero_iff]
  · refine forall₂_congr fun hb hmem => heapAllocBlock_eq_none_iff (hm.made hb hmem).blockSize_eq ?_
      (hm.marks_zero_ne hmem) (hm.used hb hmem) hsize
    have htop := (hm.made hb hmem).top
    have hpos := (hm.made hb hmem).base_pos
    omega
  · rintro hb hmem ⟨p, hb'⟩ hblock
    obtain ⟨x, v, hp, -⟩ :=
      heapAllocBlock_spec (hm.made hb hmem) (hm.marks_zero_ne hmem) hsize hblock
    rw [hp, (hm.made hb hmem).cell_eq]
    omega

/-- In every reachable state `heap_alloc` fails only for want of a run, exactly if there is
no run or one that does not start at the `lfb` of its block. -/
theorem heap_alloc_complete_iff {ops : List HeapOp} {s : HeapState}
    (hrun : Lib.Run heapStep Lib.Anything { heap := heapInit, live := [] } ops s)
    (peek : ℕ → UInt8) {size : ℕ} (hsize : 1 ≤ size) :
    ((heapAlloc peek s.heap size).1 = 0 → ∀ hb ∈ s.heap, ¬ hb.HasRun (divUp size 16)) ↔
      ((∃ hb ∈ s.heap, hb.HasRun (divUp size 16)) →
        ∃ hb ∈ s.heap, ∃ x, hb.FreeAt (divUp size 16) x ∧ x ≠ hb.lfb) := by
  rw [(heapKept_of_run hrun).alloc_eq_zero_iff peek hsize]
  constructor
  · rintro hcomplete ⟨hb, hmem, hhas⟩
    by_contra hnone
    push Not at hnone
    exact hcomplete hnone hb hmem hhas
  · intro hexists hall hb hmem hhas
    obtain ⟨k, hk, x, hfree, hne⟩ := hexists ⟨hb, hmem, hhas⟩
    exact hne (hall k hk x hfree)

theorem heapStep_alloc {s : HeapState} {peek : ℕ → UInt8} {size p : ℕ} {heap : Heap}
    (hsize : size ≠ 0) (hptr : (heapAlloc peek s.heap size).1 = p) (hp : p ≠ 0)
    (hheap : (heapAlloc peek s.heap size).2 = heap) :
    heapStep s (.alloc peek size) = some ⟨heap, ⟨p, size⟩ :: s.live⟩ := by
  rw [heapStep, if_neg hsize]
  simp only [hptr, hheap, if_neg hp]

theorem heapStep_free {s : HeapState} {a : Alloc} (ha : a ∈ s.live) :
    heapStep s (.free a) = some ⟨(heapFree s.heap a.ptr).2, s.live.erase a⟩ := if_pos ha

/-- One page with an allocation of 236 cells, and with one or two of a cell behind it. -/
@[irreducible] def emptyPage : Heap := heapAddBlock heapInit 0xc0100000 4096 16

@[irreducible] def largePage : Heap := (heapAlloc (fun _ => 0) emptyPage 3776).2

@[irreducible] def nearlyFullPage : Heap := (heapAlloc (fun _ => 0) largePage 1).2

@[irreducible] def fullPage : Heap := (heapAlloc (fun _ => 0) nearlyFullPage 1).2

theorem nearlyFullPage_run : Lib.Run heapStep Lib.Anything { heap := heapInit, live := [] }
    [.addBlock 0xc0100000 4096, .alloc (fun _ => 0) 3776, .alloc (fun _ => 0) 1]
    ⟨nearlyFullPage, [⟨0xc0100fd4, 1⟩, ⟨0xc0100114, 3776⟩]⟩ := by
  have hlarge : (heapAlloc (fun _ => 0) emptyPage 3776).1 = 0xc0100114 := by decide +kernel
  have hone : (heapAlloc (fun _ => 0) largePage 1).1 = 0xc0100fd4 := by decide +kernel
  have hstart : heapStep ⟨heapInit, []⟩ (.addBlock 0xc0100000 4096) = some ⟨emptyPage, []⟩ := by
    rw [emptyPage]
    rfl
  have hfirst : heapStep ⟨emptyPage, []⟩ (.alloc (fun _ => 0) 3776) =
      some ⟨largePage, [⟨0xc0100114, 3776⟩]⟩ :=
    heapStep_alloc (by decide) hlarge (by decide) (by rw [largePage])
  have hsecond : heapStep ⟨largePage, [⟨0xc0100114, 3776⟩]⟩ (.alloc (fun _ => 0) 1) =
      some ⟨nearlyFullPage, [⟨0xc0100fd4, 1⟩, ⟨0xc0100114, 3776⟩]⟩ :=
    heapStep_alloc (by decide) hone (by decide) (by rw [nearlyFullPage])
  exact .cons trivial hstart (.cons trivial hfirst (.single trivial hsecond))

/-- The last cell of the page is free, and not the one where the search stops. -/
theorem heap_alloc_complete_of_page :
    (∃ hb ∈ nearlyFullPage, hb.FreeAt 1 253) ∧
    ((heapAlloc (fun _ => 0) nearlyFullPage 1).1 = 0 →
      ∀ hb ∈ nearlyFullPage, ¬ hb.HasRun (divUp 1 16)) := by
  have hcell : divUp 1 16 = 1 := by decide
  obtain ⟨hb, hmem, hfree, hne⟩ : ∃ hb ∈ nearlyFullPage, hb.FreeAt 1 253 ∧ 253 ≠ hb.lfb := by
    decide +kernel
  refine ⟨⟨hb, hmem, hfree⟩, ?_⟩
  refine (heap_alloc_complete_iff nearlyFullPage_run (fun _ => 0) le_rfl).mpr fun _ => ?_
  rw [hcell]
  exact ⟨hb, hmem, 253, hfree, hne⟩

/-- The cell before the last one is freed again: the search stops there. -/
theorem heap_alloc_incomplete :
    ¬ ∀ (ops : List HeapOp) (s : HeapState),
      Lib.Run heapStep Lib.Anything { heap := heapInit, live := [] } ops s →
      ∀ (peek : ℕ → UInt8) (size : ℕ), 1 ≤ size → (heapAlloc peek s.heap size).1 = 0 →
        ∀ hb ∈ s.heap, ¬ hb.HasRun (divUp size 16) := by
  intro h
  have hcell : divUp 1 16 = 1 := by decide
  have hone : (heapAlloc (fun _ => 0) nearlyFullPage 1).1 = 0xc0100fe4 := by decide +kernel
  have hfull : heapStep ⟨nearlyFullPage, [⟨0xc0100fd4, 1⟩, ⟨0xc0100114, 3776⟩]⟩
      (.alloc (fun _ => 0) 1) =
      some ⟨fullPage, [⟨0xc0100fe4, 1⟩, ⟨0xc0100fd4, 1⟩, ⟨0xc0100114, 3776⟩]⟩ :=
    heapStep_alloc (by decide) hone (by decide) (by rw [fullPage])
  have hrun := nearlyFullPage_run.trans
    (.cons trivial hfull (.single trivial (heapStep_free (a := ⟨0xc0100fd4, 1⟩) (by decide))))
  have hnull : (heapAlloc (fun _ => 0) (heapFree fullPage 0xc0100fd4).2 1).1 = 0 := by
    decide +kernel
  obtain ⟨hb, hmem, hfree⟩ : ∃ hb ∈ (heapFree fullPage 0xc0100fd4).2, hb.FreeAt 1 252 := by
    decide +kernel
  have hnone := h _ _ hrun (fun _ => 0) 1 le_rfl hnull hb hmem
  rw [hcell] at hnone
  exact hnone ⟨252, hfree⟩

end DosKernel
