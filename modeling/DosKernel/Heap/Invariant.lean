import DosKernel.Lib.Counting
import DosKernel.Heap.Runs

/-! Whole runs of the heap. Since extents are not stored, three facts are kept
together: the live allocations are disjoint, each of them is a run of equal
marks that the next cell ends, and the marks that are not zero are those of the
reserved cells and of the live allocations. -/

namespace DosKernel

/-- The marks of the blocks are those of the reserved cells and of the allocations `s.live`. -/
structure HeapMarks (s : HeapState) : Prop where
  made : ∀ hb ∈ s.heap, hb.Made
  apart : s.heap.Pairwise HeapBlock.Apart
  placed : ∀ a ∈ s.live, ∃ hb ∈ s.heap, ∃ x, hb.Holds a x
  disjoint : s.live.Pairwise Alloc.Disjoint
  marked : ∀ hb ∈ s.heap, ∀ i < hb.blockCount, (hb.marks i ≠ 0 ↔
    i < hb.reserved ∨ ∃ a ∈ s.live, a.Covers (hb.cell i))
  used : ∀ hb ∈ s.heap, hb.used = hb.taken.card

namespace HeapMarks

variable {s : HeapState} {hb hb' : HeapBlock} {a : Alloc} {x : ℕ}

/-- The cells of a live allocation carry a mark. -/
theorem marks_ne (hs : HeapMarks s) (hm : hb ∈ s.heap) (ha : a ∈ s.live) (h : hb.Holds a x) {i : ℕ}
    (hi : x ≤ i) (hi' : i < x + a.cells) : hb.marks i ≠ 0 :=
  (hs.marked hb hm i (lt_of_lt_of_le hi' h.inside)).mpr
    (Or.inr ⟨a, ha, (h.covers (hs.made hb hm)).mpr ⟨hi, hi'⟩⟩)

theorem used_le (hs : HeapMarks s) (hm : hb ∈ s.heap) : hb.used ≤ hb.blockCount := by
  rw [hs.used hb hm, HeapBlock.taken]
  exact (Finset.card_filter_le _ _).trans (Finset.card_range _).le

theorem cells_le_used (hs : HeapMarks s) (hm : hb ∈ s.heap) (ha : a ∈ s.live) (h : hb.Holds a x) :
    a.cells ≤ hb.used := by
  have hsub : Finset.Ico x (x + a.cells) ⊆ hb.taken := by
    intro i hi
    rw [Finset.mem_Ico] at hi
    exact Finset.mem_filter.mpr ⟨Finset.mem_range.mpr (lt_of_lt_of_le hi.2 h.inside),
      hs.marks_ne hm ha h hi.1 hi.2⟩
  have := Finset.card_le_card hsub
  rw [Nat.card_Ico] at this
  rw [hs.used hb hm]
  omega

theorem marks_zero_ne (hs : HeapMarks s) (hm : hb ∈ s.heap) : hb.marks 0 ≠ 0 := by
  have hmade := hs.made hb hm
  have hc := hmade.blockCount_eq
  have hr := hmade.reserved_eq
  have hp := hmade.page
  rw [sizeofHeapBlock] at hp
  exact (hs.marked hb hm 0 (by omega)).mpr (Or.inl (by omega))

section Remark
variable {l r : Heap} {v : UInt8}

theorem mem_block (hheap : s.heap = l ++ hb :: r) : hb ∈ s.heap := by
  rw [hheap]
  exact mem_middle.mpr (Or.inl rfl)

theorem mem_other (hheap : s.heap = l ++ hb :: r) {k : HeapBlock} (hk : k ∈ l ∨ k ∈ r) :
    k ∈ s.heap := by
  rw [hheap]
  exact mem_middle.mpr (Or.inr hk)

/-- New marks in one block: what has to hold of that block, and that the others see the
same allocations. -/
theorem of_remark {n : ℕ} {live : List Alloc} (hs : HeapMarks s) (hheap : s.heap = l ++ hb :: r)
    (hm : hb.Remark hb' x n v)
    (hplaced : ∀ c ∈ live, (∃ y, hb'.Holds c y) ∨ c ∈ s.live ∧ ∀ y, hb.Holds c y → hb'.Holds c y)
    (hdisjoint : live.Pairwise Alloc.Disjoint)
    (hmarked : ∀ i < hb.blockCount, (hb'.marks i ≠ 0 ↔
      i < hb.reserved ∨ ∃ c ∈ live, c.Covers (hb.cell i)))
    (hsame : ∀ k, k ∈ l ∨ k ∈ r → ∀ i < k.blockCount,
      ((∃ c ∈ s.live, c.Covers (k.cell i)) ↔ ∃ c ∈ live, c.Covers (k.cell i)))
    (hused : hb'.used = hb'.taken.card) : HeapMarks { heap := l ++ hb' :: r, live := live } := by
  have hmade := hs.made hb (mem_block hheap)
  refine ⟨?_, hm.pairwise (hheap ▸ hs.apart), ?_, hdisjoint, ?_, ?_⟩
  · intro k hk
    rcases mem_middle.mp hk with rfl | hk
    · exact hm.made hmade
    · exact hs.made k (mem_other hheap hk)
  · intro c hc
    rcases hplaced c hc with ⟨y, hy⟩ | ⟨hlive, hkeep⟩
    · exact ⟨hb', mem_middle.mpr (Or.inl rfl), y, hy⟩
    · obtain ⟨k, hk, y, hy⟩ := hs.placed c hlive
      rcases mem_middle.mp (hheap ▸ hk) with rfl | hk
      · exact ⟨hb', mem_middle.mpr (Or.inl rfl), y, hkeep y hy⟩
      · exact ⟨k, mem_middle.mpr (Or.inr hk), y, hy⟩
  · intro k hk i hi
    rcases mem_middle.mp hk with rfl | hk
    · rw [hm.blockCount_eq] at hi
      rw [hm.reserved_eq, hm.cell_eq]
      exact hmarked i hi
    · rw [← hsame k hk i hi]
      exact hs.marked k (mem_other hheap hk) i hi
  · intro k hk
    rcases mem_middle.mp hk with rfl | hk
    · exact hused
    · exact hs.used k (mem_other hheap hk)

/-- Cells without a mark lie behind the reserved ones. -/
theorem reserved_le (hs : HeapMarks s) (hmem : hb ∈ s.heap) (hx : x < hb.blockCount)
    (hzero : hb.marks x = 0) : hb.reserved ≤ x := by
  by_contra hlt
  exact (hs.marked hb hmem x hx).mpr (Or.inl (by omega)) hzero

/-- A live allocation lies off a run of free cells, and is still held when these get a
mark that differs from the one before them. -/
theorem off_free_run {n : ℕ} (hs : HeapMarks s) (hmem : hb ∈ s.heap)
    (hfree : ∀ i, x ≤ i → i < x + n → i < hb.blockCount ∧ hb.marks i = 0) {c : Alloc}
    (hc : c ∈ s.live) {y i : ℕ} (hy : hb.Holds c y) (hi : y ≤ i) (hi' : i < y + c.cells) :
    ¬ (x ≤ i ∧ i < x + n) := fun hin =>
  hs.marks_ne hmem hc hy hi hi' (hfree i hin.1 hin.2).2

theorem holds_of_remark {n : ℕ} (hs : HeapMarks s) (hmem : hb ∈ s.heap)
    (hm : hb.Remark hb' x n v)
    (hfree : ∀ i, x ≤ i → i < x + n → i < hb.blockCount ∧ hb.marks i = 0)
    (hleft : v ≠ hb.marks (x - 1)) {c : Alloc} (hc : c ∈ s.live) {y : ℕ} (hy : hb.Holds c y) :
    hb'.Holds c y := by
  refine hm.holds hy (fun i hi hi' => hs.off_free_run hmem hfree hc hy hi hi') fun h1 h2 => ?_
  have hpos := hy.cells_pos
  have hend : y + c.cells = x := by
    by_contra hne
    exact hs.off_free_run hmem hfree hc hy (i := y + c.cells - 1) (by omega) (by omega)
      ⟨by omega, by omega⟩
  have hlast := hy.same (c.cells - 1) (by omega)
  rw [show y + (c.cells - 1) = x - 1 by omega] at hlast
  rw [← hlast]
  exact hleft

theorem alloc (hs : HeapMarks s) (hheap : s.heap = l ++ hb :: r)
    (hptr : a.ptr = hb.cell x) (hcells : 1 ≤ a.cells) (hm : hb.Remark hb' x a.cells v)
    (hused : hb'.used = hb.used + a.cells)
    (hfree : ∀ i < a.cells, x + i < hb.blockCount ∧ hb.marks (x + i) = 0)
    (hx : 1 ≤ x) (hv0 : v ≠ 0) (hleft : v ≠ hb.marks (x - 1))
    (hright : x + a.cells < hb.blockCount → v ≠ hb.marks (x + a.cells)) :
    HeapMarks { heap := l ++ hb' :: r, live := a :: s.live } := by
  have hmem := mem_block hheap
  have hmade' := hm.made (hs.made hb hmem)
  have hap : ∀ k, k ∈ l ∨ k ∈ r → hb'.Apart k := fun k hk =>
    hm.apart.mpr (apart_of_mem (hheap ▸ hs.apart) hk)
  have hzero : ∀ i, x ≤ i → i < x + a.cells → i < hb.blockCount ∧ hb.marks i = 0 := by
    intro i hi hi'
    have := hfree (i - x) (by omega)
    rwa [show x + (i - x) = i by omega] at this
  obtain ⟨hxin, hxzero⟩ := hzero x le_rfl (by omega)
  have hin : x + a.cells ≤ hb.blockCount := by
    have := (hzero (x + a.cells - 1) (by omega) (by omega)).1
    omega
  have hnew : ∀ i, x ≤ i → i < x + a.cells → hb'.marks i = v := fun i hi hi' => by
    rw [hm.marks_eq, setRange_of_mem _ _ ⟨hi, hi'⟩]
  have hholds : hb'.Holds a x :=
    hm.holds_new hptr hcells (hs.reserved_le hmem hxin hxzero) hin hright
  have hkeep : ∀ c ∈ s.live, ∀ y, hb.Holds c y → hb'.Holds c y := fun c hc y hy =>
    hs.holds_of_remark hmem hm hzero hleft hc hy
  refine hs.of_remark hheap hm (fun c hc => ?_) ?_ (fun i hi => ?_) (fun k hk i hi => ?_) ?_
  · rcases List.mem_cons.mp hc with rfl | hc
    · exact .inl ⟨x, hholds⟩
    · exact .inr ⟨hc, hkeep c hc⟩
  · refine List.pairwise_cons.mpr ⟨fun c hc => ?_, hs.disjoint⟩
    obtain ⟨k, hk, y, hy⟩ := hs.placed c hc
    rcases mem_middle.mp (hheap ▸ hk) with rfl | hk
    · exact hholds.disjoint hmade' (hkeep c hc y hy) fun i hi hi' hin =>
        hs.off_free_run hmem hzero hc hy hin.1 hin.2 ⟨hi, hi'⟩
    · exact hholds.disjoint_of_apart hmade' (hs.made k (mem_other hheap hk)) hy (hap k hk)
  · have hcov := hholds.covers hmade' (i := i)
    rw [hm.cell_eq] at hcov
    simp only [List.mem_cons, exists_eq_or_imp, hcov]
    by_cases hin : x ≤ i ∧ i < x + a.cells
    · simp [hnew i hin.1 hin.2, hv0, hin]
    · rw [hm.marks_eq, setRange_of_not_mem _ _ hin, hs.marked hb hmem i hi]
      simp [hin]
  · have hnot := hholds.not_covers hmade' (hs.made k (mem_other hheap hk)) (hap k hk) hi
    simp only [List.mem_cons, exists_eq_or_imp, hnot, false_or]
  · rw [hused, hs.used hb hmem, HeapBlock.taken, HeapBlock.taken, hm.blockCount_eq]
    refine (Lib.card_filter_gain (f := x) (fun i hi hi' => ?_) fun i _ => ?_).symm
    · exact ⟨(hzero i hi hi').1, by simp [(hzero i hi hi').2]⟩
    · by_cases hin : x ≤ i ∧ i < x + a.cells
      · simp [hnew i hin.1 hin.2, hv0, hin]
      · rw [hm.marks_eq, setRange_of_not_mem _ _ hin]
        simp [hin]

/-- Freeing a live allocation keeps the invariant. -/
theorem free (hs : HeapMarks s) (hheap : s.heap = l ++ hb :: r) (ha : a ∈ s.live)
    (h : hb.Holds a x) (hm : hb.Remark hb' x a.cells 0) (hused : hb'.used + a.cells = hb.used) :
    HeapMarks { heap := l ++ hb' :: r, live := s.live.erase a } := by
  have hmem := mem_block hheap
  have hmade := hs.made hb hmem
  have hperm : s.live.Perm (a :: s.live.erase a) := List.perm_cons_erase ha
  have hrest : ∀ c ∈ s.live.erase a, a.Disjoint c :=
    (List.pairwise_cons.mp ((hperm.pairwise_iff fun h => h.symm).mp hs.disjoint)).1
  have hcov : ∀ i, a.Covers (hb.cell i) ↔ x ≤ i ∧ i < x + a.cells := fun i => h.covers hmade
  -- off the cells of `a` the same allocations cover a cell before and after
  have hsame : ∀ addr, ¬ a.Covers addr →
      ((∃ c ∈ s.live, c.Covers addr) ↔ ∃ c ∈ s.live.erase a, c.Covers addr) := by
    intro addr hnot
    simp only [hperm.mem_iff, List.mem_cons, exists_eq_or_imp, hnot, false_or]
  refine hs.of_remark hheap hm (fun c hc => .inr ⟨List.mem_of_mem_erase hc, fun y hy => ?_⟩)
    (hs.disjoint.sublist List.erase_sublist) (fun i hi => ?_) (fun k hk i hi => ?_) ?_
  · refine hm.holds hy (fun i hi hi' hin => ?_) fun _ _ => ?_
    · exact hrest c hc _ ((hcov i).mpr hin) ((hy.covers hmade).mpr ⟨hi, hi'⟩)
    · have hpos := hy.cells_pos
      exact (hs.marks_ne hmem (List.mem_of_mem_erase hc) hy le_rfl (by omega)).symm
  · rw [hm.marks_eq]
    by_cases hin : x ≤ i ∧ i < x + a.cells
    · rw [setRange_of_mem _ _ hin]
      have hbehind := h.behind
      refine iff_of_false (by simp) ?_
      rintro (hlt | ⟨c, hc, hcc⟩)
      · omega
      · exact hrest c hc _ ((hcov i).mpr hin) hcc
    · rw [setRange_of_not_mem _ _ hin, ← hsame _ (mt (hcov i).mp hin)]
      exact hs.marked hb hmem i hi
  · exact hsame _ (h.not_covers hmade (hs.made k (mem_other hheap hk))
      (apart_of_mem (hheap ▸ hs.apart) hk) hi)
  · have hloss : hb'.taken.card + a.cells = hb.taken.card := by
      rw [HeapBlock.taken, HeapBlock.taken, hm.blockCount_eq]
      refine Lib.card_filter_loss (f := x) (fun i hi hi' => ?_) fun i _ => ?_
      · exact ⟨lt_of_lt_of_le hi' h.inside, hs.marks_ne hmem ha h hi hi'⟩
      · rw [hm.marks_eq]
        by_cases hin : x ≤ i ∧ i < x + a.cells
        · simp [setRange_of_mem _ _ hin, hin]
        · simp [setRange_of_not_mem _ _ hin, hin]
    have := hs.used hb hmem
    omega

end Remark

/-- A block on a region off the other blocks holds no allocation. -/
theorem addBlock {addr size : ℕ} (hs : HeapMarks s) (haddr : addr ≠ 0) (hsize : 4096 ≤ size)
    (htop : addr + size ≤ word32) (hapart : ∀ k ∈ s.heap, regionApart addr size k = true) :
    HeapMarks { s with heap := heapAddBlock s.heap addr size 16 } := by
  obtain ⟨hb, hadd, hnew⟩ := heapAddBlock_eq s.heap haddr hsize (by omega)
  have hmade := hnew.made haddr hsize htop
  have hap : ∀ k ∈ s.heap, hb.Apart k := by
    intro k hk
    have := hapart k hk
    simp only [regionApart, Bool.or_eq_true, decide_eq_true_eq] at this
    simp only [HeapBlock.Apart, hnew.base_eq, hnew.size_eq, sizeofHeapBlock] at *
    omega
  rw [hadd]
  refine ⟨?_, ?_, ?_, hs.disjoint, ?_, List.forall_mem_cons.mpr ⟨hnew.used_taken, hs.used⟩⟩
  · exact List.forall_mem_cons.mpr ⟨hmade, hs.made⟩
  · exact List.pairwise_cons.mpr ⟨hap, hs.apart⟩
  · intro a ha
    obtain ⟨k, hk, y, hy⟩ := hs.placed a ha
    exact ⟨k, List.mem_cons_of_mem hb hk, y, hy⟩
  · refine List.forall_mem_cons.mpr ⟨fun i hi => ?_, hs.marked⟩
    have hnone : ¬ ∃ a ∈ s.live, a.Covers (hb.cell i) := by
      rintro ⟨a, ha, hcov⟩
      obtain ⟨k, hk, y, hy⟩ := hs.placed a ha
      exact hy.not_covers (hs.made k hk) hmade (hap k hk).symm hi hcov
    simp only [hnew.marks_ne_iff, hnone, or_false]

/-- `heap_alloc` returns `NULL` and changes nothing, or a new allocation in one block. -/
theorem heapAlloc_spec (hs : HeapMarks s) (peek : ℕ → UInt8) {size : ℕ} (hsize : 1 ≤ size) :
    heapAlloc peek s.heap size = (0, s.heap) ∨
    ∃ l hb r hb' x v p, s.heap = l ++ hb :: r ∧ heapAlloc peek s.heap size = (p, l ++ hb' :: r) ∧
      hb.Remark hb' x (divUp size 16) v ∧ p ≠ 0 ∧
      HeapMarks ⟨l ++ hb' :: r, ⟨p, size⟩ :: s.live⟩ := by
  rcases heapAlloc_cases peek s.heap size with h0 | ⟨l, hb, r, p, hb', hheap, hsome, heq⟩
  · exact Or.inl h0
  have hmem := mem_block hheap
  have hmade := hs.made hb hmem
  obtain ⟨x, v, hp, hx, hm, hused, hfree, hv0, hleft, hright⟩ :=
    heapAllocBlock_spec hmade (hs.marks_zero_ne hmem) hsize hsome
  have hcells : 1 ≤ divUp size 16 := by rw [divUp_sixteen]; omega
  refine Or.inr ⟨l, hb, r, hb', x, v, p, hheap, heq, hm, ?_,
    hs.alloc hheap hp hcells hm hused hfree hx hv0 hleft hright⟩
  rw [hp, hmade.cell_eq]
  omega

/-- `heap_free` of a live allocation clears its marks in its block, unless that is the last
one of the address space. -/
theorem heapFree_cases (hs : HeapMarks s) (ha : a ∈ s.live) :
    (∃ l hb r hb' x, s.heap = l ++ hb :: r ∧ heapFree s.heap a.ptr = (true, l ++ hb' :: r) ∧
      hb.Holds a x ∧ hb.Remark hb' x a.cells 0 ∧ hb'.used + a.cells = hb.used) ∨
    heapFree s.heap a.ptr = (false, s.heap) ∧
      ∃ hb ∈ s.heap, hb.base + sizeofHeapBlock + hb.size = word32 := by
  obtain ⟨hb, hmem, x, hx⟩ := hs.placed a ha
  obtain ⟨l, r, hheap⟩ := List.append_of_mem hmem
  have hmade := hs.made hb hmem
  have hother : ∀ k, k ∈ l ∨ k ∈ r → k.owns a.ptr = false := fun k hk =>
    hx.not_owns hmade (apart_of_mem (hheap ▸ hs.apart) hk)
  rcases hmade.top.lt_or_eq with hlt | htop
  · have hok : hb.Ok := ⟨hmade.base_pos, hmade.blockSize_eq, hmade.page, hlt⟩
    obtain ⟨hm, hused⟩ :=
      heapFreeBlock_spec hmade hx (hs.cells_le_used hmem ha hx) (hs.used_le hmem)
    refine Or.inl ⟨l, hb, r, heapFreeBlock hb a.ptr, x, hheap, ?_, hx, hm, hused⟩
    rw [hheap, heapFree_append (fun k hk => hother k (Or.inl hk)) (hx.owns hok)]
  · refine Or.inr ⟨heapFree_none fun k hk => ?_, hb, hmem, htop⟩
    rcases mem_middle.mp (hheap ▸ hk) with rfl | hk
    · exact HeapBlock.not_owns_of_top htop a.ptr
    · exact hother k hk

theorem init : HeapMarks { heap := heapInit, live := [] } := by
  refine ⟨?_, List.Pairwise.nil, ?_, List.Pairwise.nil, ?_, ?_⟩ <;> simp [heapInit]

end HeapMarks

/-- What every run keeps. -/
structure HeapInv (s : HeapState) : Prop where
  ok : ∀ hb ∈ s.heap, hb.Ok
  apart : s.heap.Pairwise HeapBlock.Apart
  placed : ∀ a ∈ s.live, ∃ hb ∈ s.heap, ∃ x, hb.Holds a x
  disjoint : s.live.Pairwise Alloc.Disjoint
  marked : ∀ hb ∈ s.heap, ∀ i < hb.blockCount, (hb.marks i ≠ 0 ↔
    i < hb.reserved ∨ ∃ a ∈ s.live, a.Covers (hb.cell i))
  used : ∀ hb ∈ s.heap, hb.used = hb.taken.card

namespace HeapInv

variable {s : HeapState} {hb hb' : HeapBlock} {a : Alloc} {x : ℕ}

theorem marks (hs : HeapInv s) : HeapMarks s :=
  ⟨fun hb hm => (hs.ok hb hm).made, hs.apart, hs.placed, hs.disjoint, hs.marked, hs.used⟩

theorem of_marks (hok : ∀ hb ∈ s.heap, hb.Ok) (hs : HeapMarks s) : HeapInv s :=
  ⟨hok, hs.apart, hs.placed, hs.disjoint, hs.marked, hs.used⟩

/-- New marks do not move a block. -/
theorem ok_of_remark {l r : Heap} {n : ℕ} {v : UInt8} (hs : HeapInv s)
    (hheap : s.heap = l ++ hb :: r) (hm : hb.Remark hb' x n v) : ∀ k ∈ l ++ hb' :: r, k.Ok := by
  intro k hk
  rcases mem_middle.mp hk with rfl | hk
  · exact hm.ok (hs.ok hb (HeapMarks.mem_block hheap))
  · exact hs.ok k (HeapMarks.mem_other hheap hk)

/-- `heap_free` of a live allocation clears its marks in its block. -/
theorem heapFree_spec (hs : HeapInv s) (ha : a ∈ s.live) :
    ∃ l hb r hb' x, s.heap = l ++ hb :: r ∧ heapFree s.heap a.ptr = (true, l ++ hb' :: r) ∧
      hb.Holds a x ∧ hb.Remark hb' x a.cells 0 ∧ hb'.used + a.cells = hb.used := by
  refine (hs.marks.heapFree_cases ha).resolve_right ?_
  rintro ⟨-, hb, hmem, htop⟩
  exact absurd htop (hs.ok hb hmem).top.ne

theorem step {s' : HeapState} {o : HeapOp} (hs : HeapInv s) (hc : RegionEndsBelowTop s o)
    (h : heapStep s o = some s') : HeapInv s' := by
  cases o with
  | addBlock addr size =>
    simp only [heapStep] at h
    split at h
    next hif =>
      cases h
      refine of_marks ?_ (hs.marks.addBlock hif.1 hif.2.1 hif.2.2.1 (List.all_eq_true.mp hif.2.2.2))
      rw [RegionEndsBelowTop] at hc
      obtain ⟨hb, hadd, hnew⟩ := heapAddBlock_eq s.heap hif.1 hif.2.1 (by omega)
      have hmade := hnew.made hif.1 hif.2.1 hif.2.2.1
      rw [hadd]
      refine List.forall_mem_cons.mpr ⟨⟨hmade.base_pos, hmade.blockSize_eq, hmade.page, ?_⟩, hs.ok⟩
      rw [hnew.base_eq, hnew.size_eq, sizeofHeapBlock]
      omega
    next => cases h
  | alloc peek size =>
    simp only [heapStep] at h
    split at h
    next => cases h
    next hsize =>
      cases h
      rcases hs.marks.heapAlloc_spec peek (Nat.pos_of_ne_zero hsize) with
        h0 | ⟨l, hb, r, hb', x, v, p, hheap, heq, hm, hne, hmarks⟩
      · simpa only [h0, if_true] using hs
      · simp only [heq, if_neg hne]
        exact of_marks (hs.ok_of_remark hheap hm) hmarks
  | free a =>
    simp only [heapStep] at h
    split at h
    next ha =>
      cases h
      obtain ⟨l, hb, r, hb', x, hheap, hfree, hx, hm, hused⟩ := hs.heapFree_spec ha
      rw [hfree]
      exact of_marks (hs.ok_of_remark hheap hm) (hs.marks.free hheap ha hx hm hused)
    next => cases h

end HeapInv

/-! ### Runs -/

/-- The heap is sound: the live allocations are disjoint, behind the header and
the marks of a block and inside it; neighbours have different marks; `used`
counts the marks; and `heap_free` of a live allocation clears its marks and
no others. -/
structure HeapSound (s : HeapState) : Prop where
  disjoint : s.live.Pairwise Alloc.Disjoint
  inside : ∀ a ∈ s.live, ∃ hb ∈ s.heap,
    hb.base + sizeofHeapBlock + hb.blockCount ≤ a.ptr ∧
    a.ptr + 16 * a.cells ≤ hb.base + sizeofHeapBlock + hb.size
  coloured : ∀ hb ∈ s.heap, ∀ i, i + 1 < hb.blockCount → ∀ a ∈ s.live, ∀ c ∈ s.live, a ≠ c →
    a.Covers (hb.cell i) → c.Covers (hb.cell (i + 1)) → hb.marks i ≠ hb.marks (i + 1)
  used : ∀ hb ∈ s.heap, hb.used = hb.taken.card
  free : ∀ a ∈ s.live, ∃ l hb r hb' x, s.heap = l ++ hb :: r ∧
    heapFree s.heap a.ptr = (true, l ++ hb' :: r) ∧ a.ptr = hb.cell x ∧
    hb.Remark hb' x a.cells 0

/-- The right neighbour of an allocation starts where it ends. -/
theorem HeapInv.coloured {s : HeapState} (hs : HeapInv s) {hb : HeapBlock} (hmem : hb ∈ s.heap)
    {i : ℕ} (hi : i + 1 < hb.blockCount) {a c : Alloc} (ha : a ∈ s.live) (hc : c ∈ s.live)
    (hne : a ≠ c) (hai : a.Covers (hb.cell i)) (hci : c.Covers (hb.cell (i + 1))) :
    hb.marks i ≠ hb.marks (i + 1) := by
  have hmade := (hs.ok hb hmem).made
  obtain ⟨k, hk, x, hx⟩ := hs.placed a ha
  have hkb : k = hb := by
    by_contra hkb
    have hap := hs.apart.forall hk hmem hkb
    exact hx.not_covers (hs.ok k hk).made hmade hap (by omega) hai
  subst hkb
  have hdis := hs.disjoint.forall ha hc hne
  obtain ⟨h1, h2⟩ := (hx.covers hmade).mp hai
  have hend : i + 1 = x + a.cells := by
    by_contra hlt
    exact hdis _ ((hx.covers hmade).mpr ⟨by omega, by omega⟩) hci
  have hmark := hx.same (i - x) (by omega)
  rw [show x + (i - x) = i by omega] at hmark
  rw [hmark, hend]
  exact (hx.ends (by omega)).symm

theorem HeapInv.sound {s : HeapState} (hs : HeapInv s) : HeapSound s := by
  refine ⟨hs.disjoint, fun a ha => ?_, ?_, hs.used, fun a ha => ?_⟩
  · obtain ⟨hb, hmem, x, hx⟩ := hs.placed a ha
    have hmade := (hs.ok hb hmem).made
    have hr := hmade.reserved_eq
    have hbehind := hx.behind
    refine ⟨hb, hmem, ?_, ?_⟩
    · rw [hx.ptr_eq, hmade.cell_eq, sizeofHeapBlock]
      omega
    · have := hmade.cell_top hx.inside
      rw [hmade.cell_eq] at this
      rw [hx.ptr_eq, hmade.cell_eq]
      omega
  · intro hb hmem i hi a ha c hc hne hai hci
    exact hs.coloured hmem hi ha hc hne hai hci
  · obtain ⟨l, hb, r, hb', x, hheap, hfree, hx, hm, -⟩ := hs.heapFree_spec ha
    exact ⟨l, hb, r, hb', x, hheap, hfree, hx.ptr_eq, hm⟩

/-- From the empty heap, every run that adds blocks on disjoint regions that end
below the last address, allocates, and frees live allocations stays sound. -/
theorem heap_sound_of_regions_below_top (ops : List HeapOp) (s : HeapState)
    (hrun : Lib.Run heapStep RegionEndsBelowTop { heap := heapInit, live := [] } ops s) :
    HeapSound s :=
  (hrun.invariant (fun _ _ _ hi hc hs => HeapInv.step hi hc hs)
    (HeapInv.of_marks (by simp [heapInit]) HeapMarks.init)).sound

/-- One block of a page; allocate three times, free the one in the middle. -/
theorem heap_sound_of_three_allocs :
    ∃ s, Lib.Run heapStep RegionEndsBelowTop { heap := heapInit, live := [] }
        [.addBlock 0xc0100000 4096, .alloc (fun _ => 0) 40, .alloc (fun _ => 0) 1,
          .alloc (fun _ => 0) 100, .free ⟨0xc0100144, 1⟩] s ∧ HeapSound s ∧
      s.live = [⟨0xc0100154, 100⟩, ⟨0xc0100114, 40⟩] := by
  have hrun : Lib.Run heapStep RegionEndsBelowTop { heap := heapInit, live := [] }
      [.addBlock 0xc0100000 4096, .alloc (fun _ => 0) 40, .alloc (fun _ => 0) 1,
        .alloc (fun _ => 0) 100, .free ⟨0xc0100144, 1⟩] _ :=
    .cons (show _ < _ by decide) rfl (.cons trivial rfl (.cons trivial rfl (.cons trivial rfl
      (.cons trivial rfl (.nil _)))))
  exact ⟨_, hrun, heap_sound_of_regions_below_top _ _ hrun, by decide +kernel⟩

/-- A block that ends with the address space: the end that `heap_free` compares
with is 0, and the allocation is never freed. -/
theorem heap_unsound_at_top :
    ¬ ∀ ops s, Lib.Run heapStep Lib.Anything { heap := heapInit, live := [] } ops s →
      HeapSound s := by
  intro h
  have hrun : Lib.Run heapStep Lib.Anything { heap := heapInit, live := [] }
      [.addBlock 0xfffff000 4096, .alloc (fun _ => 0) 1] _ :=
    .cons trivial rfl (.cons trivial rfl (.nil _))
  obtain ⟨l, hb, r, hb', x, -, hfree, -⟩ := (h _ _ hrun).free ⟨0xfffff114, 1⟩ (by decide +kernel)
  have hfalse : (heapFree (heapAlloc (fun _ => 0)
      (heapAddBlock heapInit 0xfffff000 4096 16) 1).2 0xfffff114).1 = false := by decide +kernel
  have htrue := congrArg Prod.fst hfree
  rw [hfalse] at htrue
  cases htrue

end DosKernel
