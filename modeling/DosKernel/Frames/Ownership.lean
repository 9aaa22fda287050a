import DosKernel.Lib.Counting
import DosKernel.Lib.Runs
import DosKernel.Frames.Bitmap
import Mathlib.Algebra.BigOperators.Group.List.Basic

/-! Whole runs of the frame allocator. The state carries, besides the bitmap, the
ranges that were handed out and not yet given back. Every run keeps the ranges
disjoint and the bitmap equal to the reserved frames plus their union. -/

namespace DosKernel

structure FrameRange where
  addr : ℕ
  pages : ℕ
  deriving DecidableEq

namespace FrameRange

/-- The byte at address `a` lies in the range. -/
def Contains (r : FrameRange) (a : ℕ) : Prop :=
  r.addr ≤ a ∧ a < r.addr + r.pages * bitmapPageSize

def Disjoint (r q : FrameRange) : Prop := ∀ a, r.Contains a → ¬ q.Contains a

end FrameRange

structure FrameState where
  bitmap : Bitmap
  live : List FrameRange

inductive FrameOp
  | allocPage
  | allocContiguousPages (pages : ℕ)
  | freePages (range : FrameRange)

/-- What a caller holds after an allocator call returned `addr`. -/
def FrameState.grant (s : FrameState) (pages : ℕ) (result : ℕ × Bitmap) : FrameState :=
  { bitmap := result.2
    live := if result.1 = 0 then s.live else ⟨result.1, pages⟩ :: s.live }

/-- Allocations ask for at least one page; only live ranges are freed, as a whole. -/
def frameStep (s : FrameState) : FrameOp → Option FrameState
  | .allocPage => some (s.grant 1 (bitmapAllocPage s.bitmap))
  | .allocContiguousPages pages =>
    if pages = 0 then none
    else some (s.grant pages (bitmapAllocContiguousPages s.bitmap pages))
  | .freePages r =>
    if r ∈ s.live then
      some { bitmap := bitmapFreePages s.bitmap r.addr r.pages, live := s.live.erase r }
    else none

/-! ### Counting set bits -/

/-- The set bits among the searched ones. -/
def Bitmap.allocated (b : Bitmap) : Finset ℕ := (Finset.range (b.len * 32)).filter (b.bit · = true)

theorem popcnt64_setWidth (w : BitVec 32) : popcnt64 (w.setWidth 64) = popcnt32 w := by
  have hlow : ((w.setWidth 64 &&& 0xFFFFFFFF#64).toNat : BitVec 32) = w := by
    apply BitVec.eq_of_toNat_eq
    have := w.isLt
    simp [BitVec.toNat_and, BitVec.toNat_setWidth]
    rw [show (4294967295 : ℕ) = 2 ^ 32 - 1 by norm_num, Nat.and_two_pow_sub_one_eq_mod]
    omega
  have hhigh : ((w.setWidth 64 >>> 32).toNat : BitVec 32) = 0#32 := by
    apply BitVec.eq_of_toNat_eq
    have := w.isLt
    simp [BitVec.toNat_ushiftRight, BitVec.toNat_setWidth, Nat.shiftRight_eq_div_pow]
    omega
  rw [popcnt64, hlow, hhigh]
  simp [popcnt32]

/-- Both ways of counting give the number of set bits of the word. -/
theorem wordAllocated_eq (ecx w : BitVec 32) :
    wordAllocated ecx w = (List.range 32).countP w.getLsbD := by
  unfold wordAllocated
  split_ifs
  · rw [popcnt64_setWidth, popcnt32]
  · exact List.countP_congr fun j hj => by rw [issetBit_eq w (List.mem_range.mp hj)]

theorem countP_range_mul (p : ℕ → Bool) (n w : ℕ) :
    (List.range (n * w)).countP p =
      ((List.range n).map fun i => (List.range w).countP fun j => p (i * w + j)).sum := by
  induction n with
  | zero => simp
  | succ n ih =>
    rw [Nat.add_mul, Nat.one_mul, List.range_add, List.countP_append, ih, List.countP_map,
      List.range_succ (n := n), List.map_append, List.sum_append]
    simp [Function.comp_def]

theorem bitmapAllocatedPages_eq (ecx : BitVec 32) (b : Bitmap) :
    bitmapAllocatedPages ecx b = b.allocated.card := by
  have hword : ∀ i, wordAllocated ecx (b.word i) =
      (List.range 32).countP fun j => b.bit (i * 32 + j) := by
    intro i
    rw [wordAllocated_eq]
    refine List.countP_congr fun j hj => ?_
    rw [← issetBit_eq _ (List.mem_range.mp hj), b.issetBit_word (List.mem_range.mp hj)]
  simp only [bitmapAllocatedPages, hword]
  rw [← countP_range_mul, Bitmap.allocated, Finset.card_def, Finset.filter_val,
    Finset.range_val, ← Multiset.countP_eq_card_filter]
  simp [Multiset.range]

theorem card_allocated_marks {b b' : Bitmap} {f n : ℕ} (hfree : b.Free f n)
    (hm : b.Marks b' f n) : b'.allocated.card = b.allocated.card + n := by
  have hlen : b'.len = b.len := by simp [Bitmap.len, hm.frames_eq]
  rw [Bitmap.allocated, Bitmap.allocated, hlen]
  refine Lib.card_filter_gain (f := f) (fun g hg hg' => ?_) fun g _ => ?_
  · exact ⟨(hfree g hg hg').1, by simp [(hfree g hg hg').2]⟩
  · rw [hm.bit_eq, Bool.or_eq_true, decide_eq_true_eq]

theorem card_allocated_freed {b b' : Bitmap} {f n : ℕ} (hlen : b'.len = b.len)
    (hbit : ∀ g, b'.bit g = (b.bit g && !decide (f ≤ g ∧ g < f + n)))
    (hset : ∀ g, f ≤ g → g < f + n → g < b.len * 32 ∧ b.bit g = true) :
    b'.allocated.card + n = b.allocated.card := by
  rw [Bitmap.allocated, Bitmap.allocated, hlen]
  refine Lib.card_filter_loss hset fun g _ => ?_
  rw [hbit, Bool.and_eq_true, Bool.not_eq_true', decide_eq_false_iff_not]

/-! ### The invariant -/

/-- What holds in every reachable state of an allocator whose region starts at
`start` and has `frames` frames. -/
structure FrameInv (start frames : ℕ) (s : FrameState) : Prop where
  start_eq : s.bitmap.start = start
  frames_eq : s.bitmap.frames = frames
  granted : ∀ r ∈ s.live, ∃ f, r.addr = start + f * bitmapPageSize ∧ 32 ≤ f ∧ 1 ≤ r.pages ∧
    f + r.pages ≤ frames / 32 * 32
  disjoint : s.live.Pairwise FrameRange.Disjoint
  bits : ∀ f < frames / 32 * 32, (s.bitmap.bit f = true ↔
    f < 32 ∨ ∃ r ∈ s.live, r.Contains (start + f * bitmapPageSize))
  count : s.bitmap.allocated.card = 32 + (s.live.map FrameRange.pages).sum

theorem FrameRange.contains_frame {r : FrameRange} {start f g : ℕ}
    (hr : r.addr = start + f * bitmapPageSize) :
    r.Contains (start + g * bitmapPageSize) ↔ f ≤ g ∧ g < f + r.pages := by
  simp only [Contains, hr, bitmapPageSize]
  omega

/-- Ranges of whole frames are disjoint when they share no frame. -/
theorem FrameRange.disjoint_of_frames {r q : FrameRange} {start f g : ℕ}
    (hr : r.addr = start + f * bitmapPageSize) (hq : q.addr = start + g * bitmapPageSize)
    (h : ∀ k, f ≤ k → k < f + r.pages → ¬ (g ≤ k ∧ k < g + q.pages)) : r.Disjoint q := by
  intro a ha hb
  simp only [Contains, hr, hq, bitmapPageSize] at ha hb
  exact h ((a - start) / 4096) (by omega) (by omega) ⟨by omega, by omega⟩

section Steps
variable {start frames : ℕ} {s : FrameState}

/-- A successful allocation of a free run keeps the invariant. -/
theorem FrameInv.grant {f n : ℕ} {b' : Bitmap} (hs : FrameInv start frames s) (hn : 1 ≤ n)
    (hfree : s.bitmap.Free f n) (hm : s.bitmap.Marks b' f n) :
    FrameInv start frames
      { bitmap := b', live := ⟨start + f * bitmapPageSize, n⟩ :: s.live } := by
  have hlen : s.bitmap.len * 32 = frames / 32 * 32 := by rw [Bitmap.len, hs.frames_eq]
  have hin : f + n ≤ frames / 32 * 32 := by
    have := (hfree (f + n - 1) (by omega) (by omega)).1
    omega
  have hnotlive : ∀ k, f ≤ k → k < f + n →
      ¬ (k < 32 ∨ ∃ r ∈ s.live, r.Contains (start + k * bitmapPageSize)) := by
    intro k hk hk'
    rw [← hs.bits k (by omega), (hfree k hk hk').2]
    simp
  refine ⟨hm.start_eq.trans hs.start_eq, hm.frames_eq.trans hs.frames_eq, ?_, ?_, ?_, ?_⟩
  · intro r hr
    rcases List.mem_cons.mp hr with rfl | hr
    · refine ⟨f, rfl, ?_, hn, hin⟩
      by_contra hlt
      exact hnotlive f le_rfl (by omega) (Or.inl (by omega))
    · exact hs.granted r hr
  · refine List.pairwise_cons.mpr ⟨fun q hq => ?_, hs.disjoint⟩
    obtain ⟨g, hg, -⟩ := hs.granted q hq
    refine FrameRange.disjoint_of_frames rfl hg fun k hk hk' hkq => ?_
    exact hnotlive k hk hk' (Or.inr ⟨q, hq, (FrameRange.contains_frame hg).mpr hkq⟩)
  · intro k hk
    have hnew : (FrameRange.mk (start + f * bitmapPageSize) n).Contains
        (start + k * bitmapPageSize) ↔ f ≤ k ∧ k < f + n := FrameRange.contains_frame rfl
    rw [hm.bit_eq, Bool.or_eq_true, hs.bits k hk, decide_eq_true_eq, ← hnew]
    simp only [List.mem_cons, exists_eq_or_imp]
    rw [or_assoc, or_comm (a := ∃ r ∈ s.live, _)]
  · rw [card_allocated_marks hfree hm, hs.count]
    simp only [List.map_cons, List.sum_cons]
    omega

/-- Giving back a live range keeps the invariant. -/
theorem FrameInv.free {r : FrameRange} (hs : FrameInv start frames s) (hr : r ∈ s.live)
    (hsmall : frames ≤ 524288) (htop : start + frames * bitmapPageSize ≤ word32) :
    FrameInv start frames
      { bitmap := bitmapFreePages s.bitmap r.addr r.pages, live := s.live.erase r } := by
  obtain ⟨f, haddr, hf, hn, hin⟩ := hs.granted r hr
  have hlen : s.bitmap.len * 32 = frames / 32 * 32 := by rw [Bitmap.len, hs.frames_eq]
  have hbit : ∀ g, (bitmapFreePages s.bitmap r.addr r.pages).bit g =
      (s.bitmap.bit g && !decide (f ≤ g ∧ g < f + r.pages)) := by
    rw [haddr, ← hs.start_eq]
    refine bit_bitmapFreePages s.bitmap (by omega) ?_
    rw [hs.start_eq]
    refine le_trans ?_ htop
    have : f + r.pages ≤ frames := by omega
    gcongr
  have hset : ∀ g, f ≤ g → g < f + r.pages → g < s.bitmap.len * 32 ∧ s.bitmap.bit g = true := by
    intro g hg hg'
    exact ⟨by omega, (hs.bits g (by omega)).mpr
      (Or.inr ⟨r, hr, (FrameRange.contains_frame haddr).mpr ⟨hg, hg'⟩⟩)⟩
  have hperm := List.perm_cons_erase hr
  have hdisj : ∀ q ∈ s.live.erase r, r.Disjoint q :=
    (List.pairwise_cons.mp (hperm.pairwise hs.disjoint
      (fun {a c} h x hx hx' => h x hx' hx))).1
  refine ⟨?_, ?_, ?_, ?_, ?_, ?_⟩
  · rw [bitmapFreePages_start]; exact hs.start_eq
  · rw [bitmapFreePages_frames]; exact hs.frames_eq
  · exact fun q hq => hs.granted q (List.mem_of_mem_erase hq)
  · exact hs.disjoint.sublist List.erase_sublist
  · intro g hg
    have hmem : (∃ q ∈ s.live, q.Contains (start + g * bitmapPageSize)) ↔
        r.Contains (start + g * bitmapPageSize) ∨
          ∃ q ∈ s.live.erase r, q.Contains (start + g * bitmapPageSize) := by
      simp only [hperm.mem_iff, List.mem_cons, exists_eq_or_imp]
    have hexcl : r.Contains (start + g * bitmapPageSize) →
        ¬ ∃ q ∈ s.live.erase r, q.Contains (start + g * bitmapPageSize) := by
      rintro hc ⟨q, hq, hcq⟩
      exact hdisj q hq _ hc hcq
    rw [hbit, Bool.and_eq_true, hs.bits g hg, hmem]
    rw [FrameRange.contains_frame haddr] at hexcl ⊢
    simp only [Bool.not_eq_true', decide_eq_false_iff_not]
    constructor
    · rintro ⟨h | h | h, hnot⟩
      · exact Or.inl h
      · exact absurd h hnot
      · exact Or.inr h
    · rintro (h | h)
      · exact ⟨Or.inl h, by omega⟩
      · exact ⟨Or.inr (Or.inr h), fun hc => hexcl hc h⟩
  · have hcard := card_allocated_freed (by simp [Bitmap.len, bitmapFreePages_frames]) hbit hset
    have hsum := List.sum_map_erase FrameRange.pages hr
    have := hs.count
    simp only at *
    omega

theorem FrameInv.step {o : FrameOp} {s' : FrameState} (hs : FrameInv start frames s)
    (hsmall : frames ≤ 524288) (htop : start + frames * bitmapPageSize ≤ word32)
    (h : frameStep s o = some s') : FrameInv start frames s' := by
  have halloc : ∀ n, 1 ≤ n →
      FrameInv start frames (s.grant n (bitmapAllocContiguousPages s.bitmap n)) := by
    intro n hn
    rcases bitmapAllocContiguousPages_spec s.bitmap hn with ⟨he, -⟩ | ⟨f, b', he, hfree, hm, -⟩
    · rw [he]
      exact ⟨hs.start_eq, hs.frames_eq, hs.granted, hs.disjoint, hs.bits, hs.count⟩
    · have hlen : s.bitmap.len * 32 = frames / 32 * 32 := by rw [Bitmap.len, hs.frames_eq]
      have hin := (hfree f le_rfl (by omega)).1
      have h32 : 32 ≤ f := by
        by_contra hlt
        have := (hs.bits f (by omega)).mpr (Or.inl (by omega))
        rw [(hfree f le_rfl (by omega)).2] at this
        cases this
      -- the address is not `NULL` because the reserved frames come first
      have haddr : (s.bitmap.start + f * bitmapPageSize) % word32 = start + f * bitmapPageSize := by
        rw [hs.start_eq, Nat.mod_eq_of_lt]
        simp only [bitmapPageSize] at *
        omega
      have hne : start + f * bitmapPageSize ≠ 0 := by simp only [bitmapPageSize]; omega
      rw [he, haddr]
      simp only [FrameState.grant, if_neg hne]
      exact hs.grant hn hfree hm
  cases o with
  | allocPage =>
    simp only [frameStep, Option.some.injEq] at h
    rw [← h, bitmapAllocPage_eq]
    exact halloc 1 le_rfl
  | allocContiguousPages n =>
    simp only [frameStep] at h
    split_ifs at h with hn
    rw [← Option.some.inj h]
    exact halloc n (by omega)
  | freePages r =>
    simp only [frameStep] at h
    split_ifs at h with hr
    rw [← Option.some.inj h]
    exact hs.free hr hsmall htop

end Steps

/-! ### The initial state -/

theorem memsetZeroWords_of_le (memory : ℕ → BitVec 32) {n i : ℕ} (h : 4 * i + 4 ≤ n) :
    memsetZeroWords memory n i = 0#32 := by
  simp only [memsetZeroWords, show min 4 (n - 4 * i) = 4 by omega]
  apply BitVec.eq_of_getLsbD_eq
  intro k hk
  simp [hk]

/-- The rounded region of `bitmap_init`: nothing wraps when it is below 2 GiB. -/
theorem bitmapInit_geometry (memory : ℕ → BitVec 32) {start max : ℕ}
    (haligned : start % bitmapPageSize = 0) (hle : start ≤ max) (hmax : max < word32)
    (hsmall : max - start < 2147483648) :
    (bitmapInit memory start max).start = start ∧
      (bitmapInit memory start max).frames ≤ 524288 ∧
      start + (bitmapInit memory start max).frames * bitmapPageSize ≤ word32 := by
  have hmm : (max + word32 - start) % word32 = max - start := by
    simp only [word32] at *; omega
  simp only [bitmapInit, haligned, ne_eq, not_true_eq_false, if_false, hmm]
  by_cases hround : (max - start) % bitmapPageSize = 0
  · simp only [hround, not_true_eq_false, if_false]
    simp only [bitmapPageSize, word32] at *
    refine ⟨trivial, ?_, ?_⟩ <;> omega
  · simp only [hround, not_false_eq_true, if_true]
    simp only [bitmapPageSize, word32] at *
    refine ⟨trivial, ?_, ?_⟩ <;> omega

theorem bit_bitmapInit (memory : ℕ → BitVec 32) (start max : ℕ) {f : ℕ}
    (hf : f < (bitmapInit memory start max).frames / 32 * 32) :
    (bitmapInit memory start max).bit f = decide (f < 32) := by
  set n := (bitmapInit memory start max).frames with hn
  have hword : (bitmapInit memory start max).word =
      Function.update (memsetZeroWords memory (n / 8)) 0 0xFFFFFFFF#32 := rfl
  rw [Bitmap.bit, hword]
  by_cases h32 : f < 32
  · have hones : ∀ k < 32, (0xFFFFFFFF#32).getLsbD k = true := by decide
    rw [show f / 32 = 0 by omega, Function.update_self, hones _ (Nat.mod_lt _ (by norm_num))]
    simp [h32]
  · rw [Function.update_of_ne (by omega), memsetZeroWords_of_le memory (by omega)]
    simp [h32]

theorem FrameInv.init (memory : ℕ → BitVec 32) {start max : ℕ}
    (hstart : (bitmapInit memory start max).start = start)
    (hframes : 32 ≤ (bitmapInit memory start max).frames) :
    FrameInv start (bitmapInit memory start max).frames
      { bitmap := bitmapInit memory start max, live := [] } := by
  refine ⟨hstart, rfl, by simp, List.Pairwise.nil, ?_, ?_⟩
  · intro f hf
    rw [bit_bitmapInit memory start max hf]
    simp
  · have : (bitmapInit memory start max).allocated = Finset.range 32 := by
      ext g
      simp only [Bitmap.allocated, Bitmap.len, Finset.mem_filter, Finset.mem_range]
      constructor
      · rintro ⟨hg, hbit⟩
        rw [bit_bitmapInit memory start max hg] at hbit
        simpa using hbit
      · intro hg
        have hlt : g < (bitmapInit memory start max).frames / 32 * 32 := by omega
        exact ⟨hlt, by rw [bit_bitmapInit memory start max hlt]; simpa using hg⟩
    simp [this]

/-- After `bitmap_init` on a page-aligned region below 2 GiB with at least 32
frames, every sequence of allocations and of frees of live ranges keeps the live
ranges disjoint and off the reserved frames, and the searched bits are set
exactly for the reserved frames and the frames of the live ranges. -/
theorem frames_owned_once (memory : ℕ → BitVec 32) {start max : ℕ}
    (haligned : start % bitmapPageSize = 0) (hle : start ≤ max) (hmax : max < word32)
    (hsmall : max - start < 2147483648)
    (hframes : 32 ≤ (bitmapInit memory start max).frames)
    (ops : List FrameOp) (s : FrameState)
    (hrun : Lib.Run frameStep Lib.Anything
      { bitmap := bitmapInit memory start max, live := [] } ops s) (ecx : BitVec 32) :
    s.live.Pairwise FrameRange.Disjoint ∧
    (∀ r ∈ s.live, ∀ f < 32, ¬ r.Contains (start + f * bitmapPageSize)) ∧
    (∀ f < 32 * (s.bitmap.frames / 32), (s.bitmap.bit f = true ↔
      f < 32 ∨ ∃ r ∈ s.live, r.Contains (start + f * bitmapPageSize))) ∧
    bitmapAllocatedPages ecx s.bitmap = 32 + (s.live.map FrameRange.pages).sum := by
  obtain ⟨hstart, hfew, htop⟩ := bitmapInit_geometry memory haligned hle hmax hsmall
  have hinv : FrameInv start (bitmapInit memory start max).frames s :=
    hrun.invariant (fun _ _ _ hi _ hs => hi.step hfew htop hs)
      (FrameInv.init memory hstart hframes)
  refine ⟨hinv.disjoint, ?_, ?_, ?_⟩
  · intro r hr f hf
    obtain ⟨g, hg, hg32, -⟩ := hinv.granted r hr
    rw [FrameRange.contains_frame hg]
    omega
  · intro f hf
    rw [hinv.frames_eq, Nat.mul_comm] at hf
    exact hinv.bits f hf
  · rw [bitmapAllocatedPages_eq, hinv.count]

/-- A 1 MiB region at 1 MiB: allocate three pages and one, free the three. -/
theorem frames_owned_once_run :
    ∃ s, Lib.Run frameStep Lib.Anything
        { bitmap := bitmapInit (fun _ => 0#32) 0x100000 0x200000, live := [] }
        [.allocContiguousPages 3, .allocPage, .freePages ⟨0x120000, 3⟩] s ∧
      s.live.Pairwise FrameRange.Disjoint ∧
      bitmapAllocatedPages 0#32 s.bitmap = 32 + (s.live.map FrameRange.pages).sum ∧
      s.live = [⟨0x123000, 1⟩] := by
  have hrun : Lib.Run frameStep Lib.Anything
      { bitmap := bitmapInit (fun _ => 0#32) 0x100000 0x200000, live := [] }
      [.allocContiguousPages 3, .allocPage, .freePages ⟨0x120000, 3⟩] _ :=
    .cons trivial rfl (.cons trivial rfl (.cons trivial rfl (.nil _)))
  have h := frames_owned_once (fun _ => 0#32) (by decide) (by decide) (by decide) (by decide)
    (by decide) _ _ hrun 0#32
  exact ⟨_, hrun, h.1, h.2.2.2, by decide⟩

end DosKernel
