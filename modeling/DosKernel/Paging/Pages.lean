import DosKernel.Paging.Mmu

/-! Entries, pages and frames. All reasoning about page tables goes through
whole pages: a table is read from one page, and a write to one page leaves the
others as they are. -/

namespace DosKernel

open Lib

variable {m m' : Memory} {p q a i k ptr : ℕ} {e : PageEntry}

structure IsPage (p : ℕ) : Prop where
  aligned : p % 4096 = 0
  top : p < 4294967296

/-- The two memories have the same bytes in the page `p`. -/
def SamePage (m m' : Memory) (p : ℕ) : Prop := ∀ x, p ≤ x → x < p + 4096 → m x = m' x

theorem SamePage.symm (h : SamePage m m' p) : SamePage m' m p := fun x hx hx' => (h x hx hx').symm

theorem SamePage.trans {m'' : Memory} (h : SamePage m m' p) (h' : SamePage m' m'' p) :
    SamePage m m'' p := fun x hx hx' => (h x hx hx').trans (h' x hx hx')

/-! ### Entries -/

namespace PageEntry

theorem toWord_lt (e : PageEntry) : e.toWord < 256 ^ 4 := by
  have h1 := e.present.toNat_le
  have h2 := e.rw.toNat_le
  have h3 := e.user.toNat_le
  have h4 := e.flags.isLt
  have h5 := e.address.isLt
  rw [toWord]
  omega

theorem ofWord_toWord (e : PageEntry) : ofWord e.toWord = e := by
  obtain ⟨pr, rw, user, flags, address⟩ := e
  have h1 := pr.toNat_le
  have h2 := rw.toNat_le
  have h3 := user.toNat_le
  have h4 := flags.isLt
  have h5 := address.isLt
  have hbit : ∀ (c : Bool) (n : ℕ), n = c.toNat → decide (n = 1) = c := by
    rintro (_ | _) n rfl <;> rfl
  simp only [ofWord, toWord, mk.injEq]
  refine ⟨hbit _ _ (by omega), hbit _ _ (by omega), hbit _ _ (by omega), ?_, ?_⟩
  · apply BitVec.eq_of_toNat_eq
    rw [BitVec.toNat_ofNat]
    omega
  · apply BitVec.eq_of_toNat_eq
    rw [BitVec.toNat_ofNat]
    omega

theorem isPage_frame (e : PageEntry) : IsPage e.frame := by
  have h := e.address.isLt
  refine ⟨?_, ?_⟩ <;> rw [frame] <;> omega

theorem frame_withFrame (e : PageEntry) (h : IsPage ptr) : (e.withFrame ptr).frame = ptr := by
  have h1 := h.aligned
  have h2 := h.top
  simp only [frame, withFrame, BitVec.toNat_ofNat]
  omega

theorem frame_mapTo (e : PageEntry) (rw user : Bool) (h : IsPage ptr) :
    (e.mapTo rw user ptr).frame = ptr := frame_withFrame e h

end PageEntry

theorem entryAt_setEntry (ha : a + 4 ≤ space) : entryAt (setEntry m a e) a = e := by
  rw [entryAt, setEntry, Memory.load_store ha e.toWord_lt, PageEntry.ofWord_toWord]

theorem entryAt_congr (hp : IsPage p) (hi : i < 1024) (h : SamePage m m' p) :
    entryAt m (p + 4 * i) = entryAt m' (p + 4 * i) := by
  have h1 := hp.aligned
  have h2 := hp.top
  rw [entryAt, entryAt]
  congr 1
  refine Memory.load_congr (by simp only [space]; omega) fun x hx hx' => ?_
  exact h x (by omega) (by omega)

/-- Bytes outside an entry are not changed by writing it. -/
theorem setEntry_of_not_mem (hp : IsPage p) (hi : i < 1024) {x : ℕ}
    (hx : ¬ (p + 4 * i ≤ x ∧ x < p + 4 * i + 4)) : setEntry m (p + 4 * i) e x = m x := by
  have h1 := hp.aligned
  have h2 := hp.top
  rw [setEntry, Memory.store, Memory.write_of_not_mem (by simp only [space]; omega) hx]

theorem entryAt_setEntry_self (hp : IsPage p) (hi : i < 1024) :
    entryAt (setEntry m (p + 4 * i) e) (p + 4 * i) = e := by
  have h1 := hp.aligned
  have h2 := hp.top
  exact entryAt_setEntry (by simp only [space]; omega)

theorem entryAt_setEntry_ne (hp : IsPage p) (hi : i < 1024) (hk : k < 1024) (hik : i ≠ k) :
    entryAt (setEntry m (p + 4 * i) e) (p + 4 * k) = entryAt m (p + 4 * k) := by
  have h1 := hp.aligned
  have h2 := hp.top
  rw [entryAt, entryAt]
  congr 1
  refine Memory.load_congr (by simp only [space]; omega) fun x hx hx' => ?_
  exact setEntry_of_not_mem hp hi (by omega)

theorem samePage_setEntry (hp : IsPage p) (hi : i < 1024) (hq : IsPage q) (hpq : q ≠ p) :
    SamePage (setEntry m (p + 4 * i) e) m q := by
  have h1 := hp.aligned
  have h2 := hq.aligned
  intro x hx hx'
  exact setEntry_of_not_mem hp hi (by omega)

/-! ### Whole pages -/

section WholePages
variable {f : ℕ → UInt8}

theorem samePage_write {n : ℕ} (hp : IsPage p) (ha : p ≤ a) (hn : a + n ≤ p + 4096) (hq : IsPage q)
    (hpq : q ≠ p) : SamePage (m.write a n f) m q := by
  have h1 := hp.aligned
  have h2 := hq.aligned
  have h3 := hp.top
  intro x hx hx'
  exact Memory.write_of_not_mem (by simp only [space]; omega) (by omega)

theorem samePage_fill (hp : IsPage p) (hq : IsPage q) (hpq : q ≠ p) (c : UInt8) :
    SamePage (m.fill p 4096 c) m q := samePage_write hp le_rfl le_rfl hq hpq

theorem samePage_copy (hp : IsPage p) (hq : IsPage q) (hpq : q ≠ p) (src : ℕ) :
    SamePage (m.copy p src 4096) m q := samePage_write hp le_rfl le_rfl hq hpq

theorem entryAt_of_zero (hp : IsPage p) (hi : i < 1024) (h : SamePage m (fun _ => 0) p) :
    (entryAt m (p + 4 * i)).present = false := by
  rw [entryAt_congr hp hi h]
  rfl

theorem entryAt_fill (hp : IsPage p) (hi : i < 1024) :
    (entryAt (m.fill p 4096 0) (p + 4 * i)).present = false := by
  have h1 := hp.aligned
  have h2 := hp.top
  exact entryAt_of_zero hp hi fun x hx hx' =>
    Memory.write_of_mem (by simp only [space]; omega) hx hx'

theorem copy_byte (hp : IsPage p) (hq : IsPage q) {x : ℕ} (hx : x < 4096) :
    m.copy p q 4096 (p + x) = m (q + x) := by
  have h1 := hp.aligned
  have h2 := hp.top
  have h3 := hq.aligned
  have h4 := hq.top
  rw [Memory.copy, Memory.write_of_mem (by simp only [space]; omega) (by omega) (by omega),
    Nat.add_sub_cancel_left, Nat.mod_eq_of_lt (by simp only [space]; omega)]

end WholePages

/-! ### Frames of the bitmap -/

namespace Bitmap

variable {b b' : Bitmap} {n : ℕ}

/-- The managed frames are pages of the address space. -/
structure Region (b : Bitmap) : Prop where
  aligned : b.start % 4096 = 0
  top : b.start + b.len * 32 * 4096 ≤ 4294967296

/-- The frame at address `p` is managed and its bit is set. -/
def Marked (b : Bitmap) (p : ℕ) : Prop := ∃ f < b.len * 32, b.bit f = true ∧ p = b.start + f * 4096

/-- An allocation of `n` frames from address `a` on. -/
structure Grants (b b' : Bitmap) (a n : ℕ) : Prop where
  region : b'.Region
  aligned : a % 4096 = 0
  top : a + n * 4096 ≤ 4294967296
  fresh : ∀ k < n, ¬ b.Marked (a + k * 4096)
  marked : ∀ p, b'.Marked p ↔ b.Marked p ∨ ∃ k < n, p = a + k * 4096

theorem Marked.isPage (h : b.Marked p) (hr : b.Region) : IsPage p := by
  obtain ⟨f, hf, -, rfl⟩ := h
  have h1 := hr.aligned
  have h2 := hr.top
  exact ⟨by omega, by omega⟩

theorem Marks.grants (hr : b.Region) {f : ℕ} (hfree : b.Free f n) (hm : b.Marks b' f n)
    (hn : 1 ≤ n) : b.Grants b' (b.start + f * 4096) n := by
  have hlen : b'.len = b.len := by simp only [len, hm.frames_eq]
  have hin : f + n ≤ b.len * 32 := by
    have := (hfree (f + n - 1) (by omega) (by omega)).1
    omega
  have h1 := hr.aligned
  have h2 := hr.top
  refine ⟨⟨by rw [hm.start_eq]; exact h1, by rw [hm.start_eq, hlen]; exact h2⟩, by omega, by omega,
    ?_, ?_⟩
  · rintro k hk ⟨g, hg, hbit, heq⟩
    obtain rfl : g = f + k := by omega
    rw [(hfree (f + k) (by omega) (by omega)).2] at hbit
    cases hbit
  · intro p
    simp only [Marked, hlen, hm.start_eq, hm.bit_eq, Bool.or_eq_true, decide_eq_true_eq]
    constructor
    · rintro ⟨g, hg, hbit | hbit, rfl⟩
      · exact Or.inl ⟨g, hg, hbit, rfl⟩
      · exact Or.inr ⟨g - f, by omega, by omega⟩
    · rintro (⟨g, hg, hbit, rfl⟩ | ⟨k, hk, rfl⟩)
      · exact ⟨g, hg, Or.inl hbit, rfl⟩
      · exact ⟨f + k, by omega, Or.inr ⟨by omega, by omega⟩, by omega⟩

theorem Grants.isPage (h : b.Grants b' a 1) : IsPage a := ⟨h.aligned, by have := h.top; omega⟩

theorem Grants.not_marked (h : b.Grants b' a 1) : ¬ b.Marked a := by
  simpa using h.fresh 0 (by omega)

theorem Grants.marked_iff (h : b.Grants b' a 1) : b'.Marked p ↔ b.Marked p ∨ p = a := by
  rw [h.marked]
  simp

end Bitmap

/-- A contiguous allocation that does not return `NULL`. -/
theorem bitmapAllocContiguousPages_grants {b : Bitmap} (hr : b.Region) {n : ℕ} (hn : 1 ≤ n)
    (h : (bitmapAllocContiguousPages b n).1 ≠ 0) :
    b.Grants (bitmapAllocContiguousPages b n).2 (bitmapAllocContiguousPages b n).1 n := by
  rcases bitmapAllocContiguousPages_spec b hn with ⟨he, -⟩ | ⟨f, b', he, hfree, hm, -⟩
  · rw [he] at h
    exact absurd rfl h
  · have hin := (hfree f le_rfl (by omega)).1
    have h2 := hr.top
    have haddr : (b.start + f * bitmapPageSize) % word32 = b.start + f * 4096 := by
      simp only [bitmapPageSize, word32]
      omega
    rw [he, haddr]
    exact hm.grants hr hfree hn

theorem bitmapAllocPage_grants {b : Bitmap} (hr : b.Region) (h : (bitmapAllocPage b).1 ≠ 0) :
    b.Grants (bitmapAllocPage b).2 (bitmapAllocPage b).1 1 := by
  rw [bitmapAllocPage_eq] at h ⊢
  exact bitmapAllocContiguousPages_grants hr le_rfl h

/-! ### The walk -/

/-- The walk reads the directory page and one page table. -/
theorem pageOf_congr {pdt v : ℕ} (hd : IsPage pdt) (hv : v < 4294967296)
    (hdir : SamePage m m' pdt)
    (htable : (entryAt m (pdt + 4 * pdIndex v)).present = true →
      SamePage m m' (entryAt m (pdt + 4 * pdIndex v)).frame) : pageOf m pdt v = pageOf m' pdt v := by
  have hi : pdIndex v < 1024 := by rw [pdIndex]; omega
  have hj : ptIndex v < 1024 := by rw [ptIndex]; omega
  have hpd := entryAt_congr hd hi hdir
  simp only [pageOf, ← hpd]
  by_cases hpres : (entryAt m (pdt + 4 * pdIndex v)).present = true
  · rw [if_pos hpres, if_pos hpres, entryAt_congr (PageEntry.isPage_frame _) hj (htable hpres)]
  · rw [if_neg hpres, if_neg hpres]

theorem pageOf_eq_some {pdt v : ℕ} {e : PageEntry} : pageOf m pdt v = some e ↔
    (entryAt m (pdt + 4 * pdIndex v)).present = true ∧ e.present = true ∧
      entryAt m ((entryAt m (pdt + 4 * pdIndex v)).frame + 4 * ptIndex v) = e := by
  simp only [pageOf]
  split_ifs with h1 h2
  · simp only [Option.some.injEq, h1, true_and]
    exact ⟨fun h => ⟨h ▸ h2, h⟩, fun h => h.2⟩
  · simp only [h1, true_and, false_iff, not_and]
    exact fun h h' => h2 (h' ▸ h)
  · simp [h1]

/-! ### The kernel half -/

/-- `mmu_copy_kernel_pages` changes the last 256 entries of one directory, to
those of `kernel_pdt`. -/
structure KernelCopied (s s' : Mmu) (pdt n : ℕ) : Prop where
  bitmap_eq : s'.bitmap = s.bitmap
  kernelPdt_eq : s'.kernelPdt = s.kernelPdt
  other : ∀ x, ¬ (pdt + 3072 ≤ x ∧ x < pdt + 4096) → s'.mem x = s.mem x
  entry : s.kernelPdt ≠ pdt → IsPage s.kernelPdt → ∀ i, 768 ≤ i → i < n →
    entryAt s'.mem (pdt + 4 * i) = entryAt s.mem (s.kernelPdt + 4 * i)

theorem KernelCopied.step {s s' : Mmu} {pdt n : ℕ} (h : KernelCopied s s' pdt n) (hp : IsPage pdt)
    (hn : 768 ≤ n) (hn' : n < 1024) :
    KernelCopied s { s' with mem := s'.mem.copy (pdt + 4 * n) (s'.kernelPdt + 4 * n) 4 } pdt
      (n + 1) := by
  have h1 := hp.aligned
  have h2 := hp.top
  have hout : ∀ x, ¬ (pdt + 4 * n ≤ x ∧ x < pdt + 4 * n + 4) →
      s'.mem.copy (pdt + 4 * n) (s'.kernelPdt + 4 * n) 4 x = s'.mem x :=
    fun x hx => Memory.write_of_not_mem (by simp only [space]; omega) hx
  refine ⟨h.bitmap_eq, h.kernelPdt_eq, fun x hx => ?_, fun hne hk i hi hi' => ?_⟩
  · exact (hout x (by omega)).trans (h.other x hx)
  · have h3 := hk.aligned
    have h4 := hk.top
    rcases Nat.lt_succ_iff_lt_or_eq.mp hi' with hlt | rfl
    · rw [← h.entry hne hk i hi hlt, entryAt, entryAt]
      congr 1
      exact Memory.load_congr (by simp only [space]; omega) fun x hx hx' => hout x (by omega)
    · rw [entryAt, entryAt, Memory.load_copy (by simp only [space]; omega), h.kernelPdt_eq]
      congr 1
      exact Memory.load_congr (by simp only [space]; omega) fun x hx hx' => h.other x (by omega)

theorem mmuCopyKernelPages_spec (s : Mmu) {pdt : ℕ} (hp : IsPage pdt) :
    KernelCopied s (mmuCopyKernelPages s pdt) pdt 1024 :=
  forRange_invariant (I := fun n s' => KernelCopied s s' pdt n)
    (fun _ _ hk hk' h => h.step hp hk (by omega))
    ⟨rfl, rfl, fun _ _ => rfl, fun _ _ i hi hi' => absurd hi' (by omega)⟩

end DosKernel
