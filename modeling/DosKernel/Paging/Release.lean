import DosKernel.Paging.Clone

/-! Giving an address space back: `mmu_free_pages` over the user half of a directory
clears the marks of the frames mapped there and writes to its page tables only. -/

namespace DosKernel

open Lib

/-! ### One frame -/

/-- The managed frames span less than 2 GiB, so that their indices fit into the signed
difference of two addresses. -/
def Bitmap.Small (b : Bitmap) : Prop := b.len * 32 ≤ 524288

/-- Only the address of a frame has its index. -/
theorem pageIndex_eq_iff {start a f : ℕ} (hs : start % 4096 = 0) (ha : IsPage a)
    (hf : f < 524288) (htop : start + f * 4096 < 4294967296) :
    pageIndex start a = f ↔ a = start + f * 4096 := by
  have h1 := ha.aligned
  have h2 := ha.top
  constructor
  · intro h
    obtain ⟨d, hd⟩ : ∃ d : ℤ, (a : ℤ) - start = 4096 * d :=
      ⟨(a / 4096 : ℕ) - (start / 4096 : ℕ), by omega⟩
    -- the signed difference is again a number of pages, the same modulo 2 ^ 20
    obtain ⟨c, hc, hlo, hhi, hcd⟩ : ∃ c : ℤ, Int.bmod (4096 * d) word32 = 4096 * c ∧
        -524288 ≤ c ∧ c < 524288 ∧ (c - d) % 1048576 = 0 := by
      rw [Int.bmod_def]
      split_ifs with hlt
      · exact ⟨d % 1048576, by simp only [word32] at *; omega, by simp only [word32] at *; omega⟩
      · exact ⟨d % 1048576 - 1048576, by simp only [word32] at *; omega,
          by simp only [word32] at *; omega⟩
    have hdiv : (4096 * c).tdiv 4096 = c := Int.mul_tdiv_cancel_left c (by norm_num)
    rw [pageIndex, hd, hc] at h
    simp only [word32, bitmapPageSize, Nat.cast_ofNat, hdiv] at h
    omega
  · rintro rfl
    exact pageIndex_of_lt hf

/-- `bitmap_free_pages` of one page clears its mark and no other. -/
theorem marked_bitmapFreePages {b : Bitmap} (hr : b.Region) (hb : b.Small) {a : ℕ} (ha : IsPage a)
    (p : ℕ) : (bitmapFreePages b a 1).Marked p ↔ b.Marked p ∧ p ≠ a := by
  have hlen : (bitmapFreePages b a 1).len = b.len := by
    rw [Bitmap.len, bitmapFreePages_frames, Bitmap.len]
  have h1 := hr.aligned
  have h2 := hr.top
  have hbit : ∀ f < b.len * 32, (bitmapFreePages b a 1).bit f =
      (b.bit f && !decide (a = b.start + f * 4096)) := by
    intro f hf
    rw [bitmapFreePages, bitmapFreePages, bit_disable b _ (Nat.mod_lt _ (by norm_num))]
    congr 2
    rw [decide_eq_decide, ← pageIndex_eq_iff h1 ha (by rw [Bitmap.Small] at hb; omega) (by omega)]
    omega
  simp only [Bitmap.Marked, hlen, bitmapFreePages_start]
  constructor
  · rintro ⟨f, hf, hset, rfl⟩
    rw [hbit f hf, Bool.and_eq_true, Bool.not_eq_true', decide_eq_false_iff_not] at hset
    exact ⟨⟨f, hf, hset.1, rfl⟩, fun h => hset.2 h.symm⟩
  · rintro ⟨⟨f, hf, hset, rfl⟩, hne⟩
    refine ⟨f, hf, ?_, rfl⟩
    rw [hbit f hf, hset, decide_eq_false fun h => hne h.symm]
    rfl

/-! ### The loop -/

/-- The frame of one of the first `i` user pages of a directory. -/
def MappedBelow (m : Memory) (pdt i p : ℕ) : Prop :=
  ∃ k < i, ∃ e, pageOf m pdt (k * 4096) = some e ∧ e.frame = p

/-- `mmu_free_pages` before the page `i`, started in `s`. -/
structure ReleaseInv (s : Mmu) (pdt i : ℕ) (s' : Mmu) : Prop where
  region : s'.bitmap.Region
  small : s'.bitmap.Small
  marked : ∀ p, s'.bitmap.Marked p ↔ s.bitmap.Marked p ∧ ¬ MappedBelow s.mem pdt i p
  same : ∀ {q}, IsPage q → ¬ IsTable s.mem pdt 768 q → SamePage s'.mem s.mem q
  /-- A table that stands in two directory entries is emptied once. -/
  entry : ∀ {t}, IsTable s.mem pdt 768 t → ∀ j < 1024,
    entryAt s'.mem (t + 4 * j) = entryAt s.mem (t + 4 * j) ∨
    (entryAt s'.mem (t + 4 * j)).present = false ∧
      ((entryAt s.mem (t + 4 * j)).present = true →
        MappedBelow s.mem pdt i (entryAt s.mem (t + 4 * j)).frame)
  rest : { s' with mem := s.mem, bitmap := s.bitmap } = s

namespace ReleaseInv

variable {s s' : Mmu} {pdt i : ℕ}

theorem mappedBelow_succ {m : Memory} {p : ℕ} : MappedBelow m pdt (i + 1) p ↔
    MappedBelow m pdt i p ∨ ∃ e, pageOf m pdt (i * 4096) = some e ∧ e.frame = p := by
  constructor
  · rintro ⟨k, hk, h⟩
    rcases Nat.lt_succ_iff_lt_or_eq.mp hk with hk | rfl
    · exact .inl ⟨k, hk, h⟩
    · exact .inr h
  · rintro (⟨k, hk, h⟩ | h)
    · exact ⟨k, by omega, h⟩
    · exact ⟨i, by omega, h⟩

theorem freePage_eq (hi : i < 768 * 1024) : freePage pdt 0 i s' =
    (pageOf s'.mem pdt (i * 4096)).elim s' fun e =>
      unmapPage { s' with bitmap := bitmapFreePages s'.bitmap e.frame 1 } pdt (i * 4096) := by
  have hv : (0 + i * bitmapPageSize) % word32 = i * 4096 := by
    rw [Nat.zero_add, bitmapPageSize, word32, Nat.mod_eq_of_lt (by omega)]
  have hoff : pageOffset (i * 4096) = 0 := by rw [pageOffset]; omega
  simp only [freePage, hv, mmuIsMapped, mmuGetPhysicalAddressPdt, hoff, Nat.add_zero]
  cases pageOf s'.mem pdt (i * 4096) with
  | none => rfl
  | some e => rfl

theorem mono (h : ReleaseInv s pdt i s')
    (hskip : ∀ e, pageOf s.mem pdt (i * 4096) = some e → MappedBelow s.mem pdt i e.frame) :
    ReleaseInv s pdt (i + 1) s' := by
  have hiff : ∀ p, MappedBelow s.mem pdt (i + 1) p ↔ MappedBelow s.mem pdt i p := by
    intro p
    rw [mappedBelow_succ, or_iff_left_iff_imp]
    rintro ⟨e, he, rfl⟩
    exact hskip e he
  refine ⟨h.region, h.small, fun p => by rw [hiff, h.marked], h.same, fun ht j hj => ?_, h.rest⟩
  exact (h.entry ht j hj).imp_right fun hu => ⟨hu.1, fun hp => (hiff _).mpr (hu.2 hp)⟩

theorem step (h : ReleaseInv s pdt i s') (hd : IsPage pdt) (hself : ¬ IsTable s.mem pdt 768 pdt)
    (hi : i < 768 * 1024) : ReleaseInv s pdt (i + 1) (freePage pdt 0 i s') := by
  have hpi : pdIndex (i * 4096) < 768 := by rw [pdIndex]; omega
  have hpj : ptIndex (i * 4096) < 1024 := by rw [ptIndex]; omega
  have hdir : entryAt s'.mem (pdt + 4 * pdIndex (i * 4096)) =
      entryAt s.mem (pdt + 4 * pdIndex (i * 4096)) :=
    entryAt_congr hd (by omega) (h.same hd hself)
  rw [freePage_eq hi]
  cases hpage : pageOf s'.mem pdt (i * 4096) with
  | none =>
    refine h.mono fun e he => ?_
    obtain ⟨hpd, hpres, rfl⟩ := pageOf_eq_some.mp he
    rcases h.entry ⟨_, hpi, hpd, rfl⟩ _ hpj with hsame | hgone
    -- the entry is as it was, so the page would have been found
    · rw [← hdir] at hpd
      rw [pageOf, if_pos hpd, hdir, hsame, if_pos hpres] at hpage
      cases hpage
    · exact hgone.2 hpres
  | some e =>
    obtain ⟨hpd, hpres, hentry⟩ := pageOf_eq_some.mp hpage
    rw [hdir] at hpd hentry
    generalize ht : (entryAt s.mem (pdt + 4 * pdIndex (i * 4096))).frame = t at hentry
    have htable : IsTable s.mem pdt 768 t := ⟨_, hpi, hpd, ht⟩
    have htpage : IsPage t := ht ▸ PageEntry.isPage_frame _
    have hsource : entryAt s.mem (t + 4 * ptIndex (i * 4096)) = e := by
      rcases h.entry htable _ hpj with hsame | hgone
      · rw [← hsame, hentry]
      · rw [hentry, hpres] at hgone
        exact absurd hgone.1 (by simp)
    have hfound : pageOf s.mem pdt (i * 4096) = some e :=
      pageOf_eq_some.mpr ⟨hpd, hpres, by rw [ht, hsource]⟩
    have hunmap : unmapPage { s' with bitmap := bitmapFreePages s'.bitmap e.frame 1 } pdt (i * 4096)
        = { s' with
            bitmap := bitmapFreePages s'.bitmap e.frame 1
            mem := setEntry s'.mem (t + 4 * ptIndex (i * 4096)) e.unmap } := by
      rw [unmapPage, hdir, if_pos hpd, ht]
      dsimp only
      rw [hentry]
    rw [Option.elim_some, hunmap]
    generalize ptIndex (i * 4096) = j at *
    refine ⟨⟨?_, ?_⟩, ?_, fun p => ?_, fun hq hqt => ?_, fun {t'} ht' j' hj' => ?_, h.rest⟩
    · rw [bitmapFreePages_start]
      exact h.region.aligned
    · rw [Bitmap.len, bitmapFreePages_start, bitmapFreePages_frames]
      exact h.region.top
    · rw [Bitmap.Small, Bitmap.len, bitmapFreePages_frames]
      exact h.small
    · rw [marked_bitmapFreePages h.region h.small (PageEntry.isPage_frame e), h.marked,
        mappedBelow_succ, hfound, not_or, and_assoc]
      simp [eq_comm]
    · exact (samePage_setEntry htpage hpj hq fun hqt' => hqt (hqt' ▸ htable)).trans (h.same hq hqt)
    · have hmono : ∀ p, MappedBelow s.mem pdt i p → MappedBelow s.mem pdt (i + 1) p :=
        fun p hp => mappedBelow_succ.mpr (.inl hp)
      have hkeep : entryAt (setEntry s'.mem (t + 4 * j) e.unmap) (t' + 4 * j') =
          entryAt s'.mem (t' + 4 * j') ∨ t' = t ∧ j' = j := by
        by_cases htt : t' = t
        · by_cases hjj : j' = j
          · exact .inr ⟨htt, hjj⟩
          · rw [htt]
            exact .inl (entryAt_setEntry_ne htpage hpj hj' (Ne.symm hjj))
        · have hpage' := isPage_of_isTable ht'
          exact .inl (entryAt_congr hpage' hj' (samePage_setEntry htpage hpj hpage' htt))
      rcases hkeep with heq | ⟨rfl, rfl⟩
      · dsimp only
        rw [heq]
        exact (h.entry ht' j' hj').imp_right fun hgone => ⟨hgone.1, fun hp => hmono _ (hgone.2 hp)⟩
      · right
        dsimp only
        rw [entryAt_setEntry_self htpage hpj, hsource]
        exact ⟨rfl, fun _ => mappedBelow_succ.mpr (.inr ⟨e, hfound, rfl⟩)⟩

end ReleaseInv

/-- The user pages of a directory are those its tables map. -/
theorem mappedBelow_all {m : Memory} {pdt p : ℕ} :
    MappedBelow m pdt (768 * 1024) p ↔ IsMappedPage m pdt 768 p := by
  constructor
  · rintro ⟨k, hk, e, he, rfl⟩
    obtain ⟨hpd, hpres, hentry⟩ := pageOf_eq_some.mp he
    refine ⟨_, ?_, hpd, ptIndex (k * 4096), ?_, ?_, ?_⟩
    · rw [pdIndex]; omega
    · rw [ptIndex]; omega
    · rw [hentry, hpres]
    · rw [hentry]
  · rintro ⟨d, hd, hpd, j, hj, hpres, rfl⟩
    have hdi : pdIndex ((d * 1024 + j) * 4096) = d := by rw [pdIndex]; omega
    have hji : ptIndex ((d * 1024 + j) * 4096) = j := by rw [ptIndex]; omega
    refine ⟨d * 1024 + j, by omega, _, pageOf_eq_some.mpr ⟨?_, hpres, ?_⟩, rfl⟩
    · rw [hdi]
      exact hpd
    · rw [hdi, hji]

/-- What giving back the address space of `pdt` does: the marks of its directory and of
its user pages are cleared, and only its page tables are written. -/
structure Released (s s' : Mmu) (pdt : ℕ) : Prop where
  region : s'.bitmap.Region
  small : s'.bitmap.Small
  marked : ∀ p, s'.bitmap.Marked p ↔ s.bitmap.Marked p ∧ ¬ IsMappedPage s.mem pdt 768 p ∧ p ≠ pdt
  same : ∀ {q}, IsPage q → ¬ IsTable s.mem pdt 768 q → SamePage s'.mem s.mem q
  rest : { s' with mem := s.mem, bitmap := s.bitmap } = s

/-- The address space of a process is given back: the frames of its user pages and
the frame of its directory. -/
def releaseAddressSpace (s : Mmu) (pdt : ℕ) : Mmu :=
  let s := mmuFreePages s pdt 0 (768 * 1024)
  { s with bitmap := bitmapFreePages s.bitmap pdt 1 }

theorem mmuFreePages_spec {s : Mmu} {pdt n : ℕ} (hr : s.bitmap.Region) (hsmall : s.bitmap.Small)
    (hd : IsPage pdt) (hself : ¬ IsTable s.mem pdt 768 pdt) (hn : n ≤ 768 * 1024) :
    ReleaseInv s pdt n (mmuFreePages s pdt 0 n) := by
  have hinit : ReleaseInv s pdt 0 s :=
    ⟨hr, hsmall, fun p => by simp [MappedBelow], fun _ _ _ _ _ => rfl, fun _ _ _ => .inl rfl, rfl⟩
  have h := forRange_invariant (I := ReleaseInv s pdt)
    (fun i s' _ hi hs' => hs'.step hd hself (by omega)) (n := n) hinit
  rwa [Nat.zero_add] at h

/-- Clearing the mark of the directory, behind the loop. -/
theorem ReleaseInv.released {s s' : Mmu} {pdt : ℕ} (h : ReleaseInv s pdt (768 * 1024) s')
    (hd : IsPage pdt) :
    Released s { s' with bitmap := bitmapFreePages s'.bitmap pdt 1 } pdt := by
  refine ⟨⟨?_, ?_⟩, ?_, fun p => ?_, h.same, h.rest⟩
  · rw [bitmapFreePages_start]
    exact h.region.aligned
  · rw [Bitmap.len, bitmapFreePages_start, bitmapFreePages_frames]
    exact h.region.top
  · rw [Bitmap.Small, Bitmap.len, bitmapFreePages_frames]
    exact h.small
  · rw [marked_bitmapFreePages h.region h.small hd, h.marked, mappedBelow_all, and_assoc]

theorem releaseAddressSpace_spec {s : Mmu} {pdt : ℕ} (hr : s.bitmap.Region) (hsmall : s.bitmap.Small)
    (hd : IsPage pdt) (hself : ¬ IsTable s.mem pdt 768 pdt) :
    Released s (releaseAddressSpace s pdt) pdt :=
  (mmuFreePages_spec hr hsmall hd hself le_rfl).released hd

end DosKernel
