import DosKernel.Frames.Ownership
import DosKernel.Lib.History
import DosKernel.Process.Spinlock

/-! The frame allocator under its lock, one access to the bitmap after the other. The searches
and the loops of the three operations are small steps; between two of them other contexts may
run, but not inside an operation of the allocator. A range is held by the context that got it
until this context gives it back. -/

namespace DosKernel

/-- Where an operation of the allocator is, with its local variables. Each step performs at most
one access to the bitmap. -/
inductive FrameLocal
  /-- The test of bit `j` of word `i` in `bitmap_alloc_page`. -/
  | page (i j : ℕ)
  /-- `ENABLE_BIT`: the word is read, -/
  | pageLoad (i j : ℕ)
  /-- and written. -/
  | pageStore (i j : ℕ) (w : BitVec 32)
  /-- The test of bit `j` of word `i` in `bitmap_alloc_contiguous_pages`. -/
  | run (pages i j : ℕ)
  /-- The inner search, which still has `k` pages to find. -/
  | probe (pages i j k ii jj : ℕ)
  /-- The marking loop, which still has `k` pages to mark: the word is read, -/
  | markLoad (i j k ii jj : ℕ)
  /-- and written. -/
  | markStore (i j k ii jj : ℕ) (w : BitVec 32)
  /-- The loop of `bitmap_free_pages`, which still has `pages` pages to free. -/
  | freeLoad (addr pages : ℕ)
  | freeStore (addr pages : ℕ) (w : BitVec 32)

/-- The next bit of the bitmap in the order of the searches. -/
def nextBit (i j : ℕ) : ℕ × ℕ := Lib.next 32 i j

namespace FrameLocal

/-- The step from each point. Beyond the last word an allocation returns `NULL`. -/
def advance : FrameLocal → Bitmap → (FrameLocal ⊕ ℕ) × Bitmap
  | page i j, b =>
    if i < b.len then
      if issetBit (b.word i) j then (.inl (page (nextBit i j).1 (nextBit i j).2), b)
      else (.inl (pageLoad i j), b)
    else (.inr 0, b)
  | pageLoad i j, b => (.inl (pageStore i j (b.word i)), b)
  | pageStore i j w, b => (.inr (b.frameAddr i j), b.setWord i (enableBit w j))
  | run pages i j, b =>
    if i < b.len then
      if issetBit (b.word i) j then (.inl (run pages (nextBit i j).1 (nextBit i j).2), b)
      else (.inl (probe pages i j (pages - 1) i (j + 1)), b)
    else (.inr 0, b)
  | probe pages i j 0 _ _, b => (.inl (markLoad i j pages i j), b)
  | probe pages i j (k + 1) ii jj, b =>
    let ii' := if jj = 32 then ii + 1 else ii
    let jj' := if jj = 32 then 0 else jj
    if ii' = b.len then (.inl (run pages (nextBit i j).1 (nextBit i j).2), b)
    else if issetBit (b.word ii') jj' then (.inl (run pages (nextBit i j).1 (nextBit i j).2), b)
    else (.inl (probe pages i j k ii' (jj' + 1)), b)
  | markLoad i j 0 _ _, b => (.inr (b.frameAddr i j), b)
  | markLoad i j (k + 1) ii jj, b =>
    let ii' := if jj = 32 then ii + 1 else ii
    let jj' := if jj = 32 then 0 else jj
    (.inl (markStore i j k ii' jj' (b.word ii')), b)
  | markStore i j k ii jj w, b =>
    (.inl (markLoad i j k ii (jj + 1)), b.setWord ii (enableBit w jj))
  | freeLoad _ 0, b => (.inr 0, b)
  | freeLoad addr (pages + 1), b =>
    (.inl (freeStore addr pages (b.word (pageIndex b.start addr / 32))), b)
  | freeStore addr pages w, b =>
    let index := pageIndex b.start addr
    (.inl (freeLoad ((addr + bitmapPageSize) % word32) pages),
      b.setWord (index / 32) (disableBit w (index % 32)))

end FrameLocal

/-- The three operations. -/
def frameRoutine : Lib.Routine FrameOp FrameLocal ℕ Bitmap where
  entry
    | .allocPage => .page 0 0
    | .allocContiguousPages pages => .run pages 0 0
    | .freePages r => .freeLoad r.addr r.pages
  advance := FrameLocal.advance

/-- What an operation returns and does to the bitmap. -/
def applyFrameOp : FrameOp → Bitmap → ℕ × Bitmap
  | .allocPage, b => bitmapAllocPage b
  | .allocContiguousPages pages, b => bitmapAllocContiguousPages b pages
  | .freePages r, b => (0, bitmapFreePages b r.addr r.pages)

/-! ### The steps compute the operations -/

variable {ι : Type*} [DecidableEq ι]

/-- What the callers hold after one more operation ended. -/
def ownedAfter (owned : List (ι × FrameRange)) : ι × FrameOp × ℕ → List (ι × FrameRange)
  | (i, .allocPage, addr) => if addr = 0 then owned else (i, ⟨addr, 1⟩) :: owned
  | (i, .allocContiguousPages pages, addr) =>
    if addr = 0 then owned else (i, ⟨addr, pages⟩) :: owned
  | (i, .freePages r, _) => owned.erase (i, r)

/-- The ranges that the contexts got and did not give back, with the contexts. -/
def ownedRanges (log : List (ι × FrameOp × ℕ)) : List (ι × FrameRange) := log.foldl ownedAfter []

/-- At least one page is asked for; only a range of one's own is given back. -/
def FrameOp.Allowed (i : ι) (owned : List (ι × FrameRange)) : FrameOp → Prop
  | .allocPage => True
  | .allocContiguousPages pages => pages ≠ 0
  | .freePages r => (i, r) ∈ owned

instance (i : ι) (owned : List (ι × FrameRange)) (op : FrameOp) : Decidable (op.Allowed i owned) :=
  match op with
  | .allocPage => .isTrue trivial
  | .allocContiguousPages pages => inferInstanceAs (Decidable (pages ≠ 0))
  | .freePages r => inferInstanceAs (Decidable ((i, r) ∈ owned))

/-- The callers' side of the contract: every call is allowed when it is made. -/
def CallsAllowed (s : SpinState ι FrameOp FrameLocal ℕ Bitmap) : SpinEvent ι FrameOp → Prop
  | .call i op => op.Allowed i (ownedRanges s.log)
  | .next _ => True

instance (s : SpinState ι FrameOp FrameLocal ℕ Bitmap) (e : SpinEvent ι FrameOp) :
    Decidable (CallsAllowed s e) :=
  match e with
  | .call i op => inferInstanceAs (Decidable (op.Allowed i (ownedRanges s.log)))
  | .next _ => .isTrue trivial

/-- Every operation was allowed when it took its place in the serial order. -/
def LogAllowed (log : List (ι × FrameOp × ℕ)) : Prop :=
  Lib.EachEvent (fun earlier e => e.2.1.Allowed e.1 (ownedRanges earlier)) log

theorem ownedRanges_concat (log : List (ι × FrameOp × ℕ)) (e : ι × FrameOp × ℕ) :
    ownedRanges (log ++ [e]) = ownedAfter (ownedRanges log) e := by
  simp [ownedRanges]

/-- What another context does takes nothing away from what this one may do. -/
theorem FrameOp.Allowed.other {i j : ι} {owned : List (ι × FrameRange)} {op : FrameOp}
    (h : op.Allowed j owned) (hij : i ≠ j) (op' : FrameOp) (addr : ℕ) :
    op.Allowed j (ownedAfter owned (i, op', addr)) := by
  cases op with
  | allocPage => trivial
  | allocContiguousPages pages => exact h
  | freePages r =>
    have hne : (j, r) ≠ (i, r) := fun heq => hij (Prod.mk.inj heq).1.symm
    cases op' with
    | allocPage =>
      simp only [Allowed, ownedAfter]
      split_ifs
      · exact h
      · exact List.mem_cons_of_mem _ h
    | allocContiguousPages pages =>
      simp only [Allowed, ownedAfter]
      split_ifs
      · exact h
      · exact List.mem_cons_of_mem _ h
    | freePages q =>
      have hne : (j, r) ≠ (i, q) := fun heq => hij (Prod.mk.inj heq).1.symm
      exact (List.mem_erase_of_ne hne).mpr h

/-- The operation that a context was called with and that has not ended yet. -/
def LockContext.pending {ω L R : Type*} (c : LockContext ω L R) : Option ω :=
  match c.point with
  | .acquiring op _ => some op
  | .inside op _ => some op
  | _ => none

/-- The operations that ended were allowed, and those under way are. -/
structure CallsKept (s : SpinState ι FrameOp FrameLocal ℕ Bitmap) : Prop where
  logAllowed : LogAllowed s.log
  pendingAllowed : ∀ i op, (s.context i).pending = some op → op.Allowed i (ownedRanges s.log)

namespace CallsKept

variable {s s' : SpinState ι FrameOp FrameLocal ℕ Bitmap} {i : ι}

/-- A context moves, and what it still has to do was allowed. -/
theorem put (h : CallsKept s) (locked : BitVec 32) {c : LockContext FrameOp FrameLocal ℕ}
    (hc : ∀ op, c.pending = some op → op.Allowed i (ownedRanges s.log)) :
    CallsKept (s.put i locked c) where
  logAllowed := h.logAllowed
  pendingAllowed := by
    intro j op hj
    by_cases hji : j = i
    · subst hji
      rw [s.put_context_self] at hj
      exact hc op hj
    · rw [s.put_context_of_ne hji] at hj
      exact h.pendingAllowed j op hj

/-- A step inside an operation, or its end. -/
theorem advanced (h : CallsKept s) {op : FrameOp} (hop : op.Allowed i (ownedRanges s.log))
    (regs : LockRegisters) (x : (FrameLocal ⊕ ℕ) × Bitmap) :
    CallsKept (s.advanced i op regs x) := by
  rcases x with ⟨l | addr, b⟩
  · have hput := h.put (i := i) s.locked (c := ⟨.inside op l, regs⟩) (by
      intro op' hop'
      obtain rfl := Option.some.inj hop'
      exact hop)
    exact ⟨hput.logAllowed, hput.pendingAllowed⟩
  · refine ⟨Lib.eachEvent_concat.mpr ⟨h.logAllowed, hop⟩, fun j op' hj => ?_⟩
    simp only [SpinState.advanced, ownedRanges_concat] at hj ⊢
    by_cases hji : j = i
    · subst hji
      rw [s.put_context_self] at hj
      cases hj
    · rw [s.put_context_of_ne hji] at hj
      exact (h.pendingAllowed j op' hj).other (Ne.symm hji) op addr

theorem step (h : CallsKept s) {e : SpinEvent ι FrameOp} (hallowed : CallsAllowed s e)
    (hs : spinStep frameRoutine s e = some s') : CallsKept s' := by
  cases e with
  | call i op =>
    simp only [spinStep] at hs
    split at hs
    next =>
      obtain rfl := Option.some.inj hs
      apply h.put
      intro op' hop'
      obtain rfl := Option.some.inj hop'
      exact hallowed
    next => cases hs
  | next i =>
    have hpending := h.pendingAllowed i
    rcases hc : s.context i with ⟨point, regs⟩
    rw [hc] at hpending
    simp only [spinStep, hc] at hs
    cases point with
    | outside => cases hs
    | acquiring op pc =>
      obtain rfl := Option.some.inj hs
      apply h.put
      intro op' hop'
      apply hpending
      rcases hpc : (spinlockTestAndSet s.locked regs pc).2.2 with _ | pc' <;>
        simpa [hpc, LockContext.locking, LockContext.pending] using hop'
    | inside op l =>
      obtain rfl := Option.some.inj hs
      exact h.advanced (hpending op rfl) regs _
    | releasing op r pc =>
      obtain rfl := Option.some.inj hs
      apply h.put
      intro op' hop'
      rcases hpc : (spinlockRelease s.locked pc).2 with _ | pc' <;>
        simp [hpc, LockContext.unlocking, LockContext.pending] at hop'

end CallsKept

/-- The order in which the ranges are listed does not matter. -/
theorem FrameInv.perm {start frames : ℕ} {s : FrameState} {live : List FrameRange}
    (h : FrameInv start frames s) (hperm : s.live.Perm live) :
    FrameInv start frames { s with live := live } where
  start_eq := h.start_eq
  frames_eq := h.frames_eq
  granted r hr := h.granted r (hperm.mem_iff.mpr hr)
  disjoint := hperm.pairwise h.disjoint fun {a c} hac x hx hx' => hac x hx' hx
  bits f hf := by
    rw [h.bits f hf]
    simp only [hperm.mem_iff]
  count := by
    rw [h.count]
    simp only [(hperm.map FrameRange.pages).sum_eq]

/-- One more allowed operation. -/
theorem FrameInv.apply {start frames : ℕ} {b : Bitmap} {owned : List (ι × FrameRange)} {i : ι}
    {op : FrameOp} (h : FrameInv start frames ⟨b, owned.map Prod.snd⟩)
    (hsmall : frames ≤ 524288) (htop : start + frames * bitmapPageSize ≤ word32)
    (hop : op.Allowed i owned) :
    FrameInv start frames ⟨(applyFrameOp op b).2,
      (ownedAfter owned (i, op, (applyFrameOp op b).1)).map Prod.snd⟩ := by
  cases op with
  | allocPage =>
    have hstep := h.step hsmall htop (o := .allocPage) rfl
    change FrameInv start frames ⟨(bitmapAllocPage b).2,
      (if (bitmapAllocPage b).1 = 0 then owned
        else (i, ⟨(bitmapAllocPage b).1, 1⟩) :: owned).map Prod.snd⟩
    rw [apply_ite (List.map Prod.snd)]
    exact hstep
  | allocContiguousPages pages =>
    have hstep := h.step hsmall htop (o := .allocContiguousPages pages) (if_neg hop)
    change FrameInv start frames ⟨(bitmapAllocContiguousPages b pages).2,
      (if (bitmapAllocContiguousPages b pages).1 = 0 then owned
        else (i, ⟨(bitmapAllocContiguousPages b pages).1, pages⟩) :: owned).map Prod.snd⟩
    rw [apply_ite (List.map Prod.snd)]
    exact hstep
  | freePages r =>
    have hmem : r ∈ owned.map Prod.snd := List.mem_map_of_mem hop
    have hstep := h.step hsmall htop (o := .freePages r) (if_pos hmem)
    refine hstep.perm ?_
    have hperm := (List.perm_cons_erase hop).map Prod.snd
    exact (hperm.symm.trans (List.perm_cons_erase hmem)).cons_inv.symm

end DosKernel
