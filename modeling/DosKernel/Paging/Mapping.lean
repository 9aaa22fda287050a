import DosKernel.Paging.Clone

/-! `mmu_map_pages`. One page is mapped by two writes, to an entry of the directory and
to an entry of its table; the table is a new one when the directory had none there. -/

namespace DosKernel

open Lib

theorem isPage_zero : IsPage 0 := ⟨by decide, by decide⟩

/-- An allocation, also one that fails, clears no bit. -/
theorem bitmapAllocContiguousPages_keeps {b : Bitmap} (hr : b.Region) (n : ℕ) :
    (bitmapAllocContiguousPages b n).2.Region ∧
      ∀ p, b.Marked p → (bitmapAllocContiguousPages b n).2.Marked p := by
  rcases Nat.eq_zero_or_pos n with rfl | hn
  · have hb : (bitmapAllocContiguousPages b 0).2 = b := by
      rw [bitmapAllocContiguousPages]
      split <;> rfl
    rw [hb]
    exact ⟨hr, fun _ hp => hp⟩
  · rcases bitmapAllocContiguousPages_spec b hn with ⟨he, -⟩ | ⟨f, b', he, hfree, hm, -⟩
    · rw [he]
      exact ⟨hr, fun _ hp => hp⟩
    · rw [he]
      have hgr := hm.grants hr hfree hn
      exact ⟨hgr.region, fun p hp => (hgr.marked p).mpr (.inl hp)⟩

/-- The page that was asked for is `NULL` or a new frame, and it is zeroed in both cases. -/
structure Zeroed (s s' : Mmu) (t : ℕ) : Prop where
  region : s'.bitmap.Region
  marked : ∀ {p}, s.bitmap.Marked p → s'.bitmap.Marked p
  page : IsPage t
  fresh : t = 0 ∨ s.bitmap.Grants s'.bitmap t 1
  same : ∀ {q}, IsPage q → q ≠ t → SamePage s'.mem s.mem q
  zero : ∀ k < 1024, (entryAt s'.mem (t + 4 * k)).present = false
  rest : { s' with mem := s.mem, bitmap := s.bitmap } = s

theorem allocZeroed_spec {s : Mmu} (hr : s.bitmap.Region) :
    Zeroed s (allocZeroed s).2 (allocZeroed s).1 := by
  have hkeep := bitmapAllocContiguousPages_keeps hr 1
  rw [← bitmapAllocPage_eq] at hkeep
  have hfresh : (bitmapAllocPage s.bitmap).1 = 0 ∨
      s.bitmap.Grants (bitmapAllocPage s.bitmap).2 (bitmapAllocPage s.bitmap).1 1 := by
    by_cases h0 : (bitmapAllocPage s.bitmap).1 = 0
    · exact .inl h0
    · exact .inr (bitmapAllocPage_grants hr h0)
  have hpage : IsPage (bitmapAllocPage s.bitmap).1 := by
    rcases hfresh with h0 | hgr
    · rw [h0]
      exact isPage_zero
    · exact hgr.isPage
  exact ⟨hkeep.1, fun hp => hkeep.2 _ hp, hpage, hfresh,
    fun hq hne => samePage_fill hpage hq hne 0, fun k hk => entryAt_fill hpage hk, rfl⟩

/-- The memory `m'` is `m` after the entries for a page with indices `i` and `j` were set
in `pdt` and in the table `t`. -/
structure EntrySet (m m' : Memory) (pdt i j t real : ℕ) (rw user : Bool) : Prop where
  entry : entryAt m' (pdt + 4 * i) = (entryAt m (pdt + 4 * i)).mapTo rw user t
  other : ∀ k < 1024, k ≠ i → entryAt m' (pdt + 4 * k) = entryAt m (pdt + 4 * k)
  same : ∀ {q}, IsPage q → q ≠ pdt → q ≠ t → SamePage m' m q
  mapped : ∃ e : PageEntry, entryAt m' (t + 4 * j) = e.mapTo rw user real
  pages : ∀ k < 1024, k ≠ j →
    if (entryAt m (pdt + 4 * i)).present then entryAt m' (t + 4 * k) = entryAt m (t + 4 * k)
    else (entryAt m' (t + 4 * k)).present = false

/-- The two writes, once the table is there in the memory `m₁`. -/
theorem entrySet_of_table {m m₁ : Memory} {pdt i j t : ℕ} (real : ℕ) (rw user : Bool) (hd : IsPage pdt)
    (ht : IsPage t) (hne : pdt ≠ t) (hi : i < 1024) (hj : j < 1024)
    (hsame : ∀ {q}, IsPage q → q ≠ t → SamePage m₁ m q)
    (hpages : ∀ k < 1024, if (entryAt m (pdt + 4 * i)).present then
        entryAt m₁ (t + 4 * k) = entryAt m (t + 4 * k)
      else (entryAt m₁ (t + 4 * k)).present = false) :
    EntrySet m
      (setEntry (setEntry m₁ (pdt + 4 * i) ((entryAt m₁ (pdt + 4 * i)).mapTo rw user t)) (t + 4 * j)
        ((entryAt (setEntry m₁ (pdt + 4 * i)
          ((entryAt m₁ (pdt + 4 * i)).mapTo rw user t)) (t + 4 * j)).mapTo rw user real))
      pdt i j t real rw user := by
  have hdirEntry : ∀ k < 1024, entryAt m₁ (pdt + 4 * k) = entryAt m (pdt + 4 * k) :=
    fun k hk => entryAt_congr hd hk (hsame hd hne)
  have hback : ∀ {m : Memory} {e : PageEntry}, ∀ k < 1024,
      entryAt (setEntry m (t + 4 * j) e) (pdt + 4 * k) = entryAt m (pdt + 4 * k) :=
    fun k hk => entryAt_congr hd hk (samePage_setEntry ht hj hd hne)
  have htab : ∀ {e : PageEntry}, SamePage (setEntry m₁ (pdt + 4 * i) e) m₁ t :=
    samePage_setEntry hd hi ht hne.symm
  refine ⟨?_, fun k hk hki => ?_, fun hq hqd hqt => ?_, ⟨_, entryAt_setEntry_self ht hj⟩,
    fun k hk hkj => ?_⟩
  · rw [hback i hi, entryAt_setEntry_self hd hi, hdirEntry i hi]
  · rw [hback k hk, entryAt_setEntry_ne hd hi hk hki.symm, hdirEntry k hk]
  · exact ((samePage_setEntry ht hj hq hqt).trans (samePage_setEntry hd hi hq hqd)).trans
      (hsame hq hqt)
  · rw [entryAt_setEntry_ne ht hj hk hkj.symm, entryAt_congr ht hk htab]
    exact hpages k hk

/-- The table that the step for `virt` uses: that of the directory entry or a new page. -/
def tableFor (s : Mmu) (pdt virt : ℕ) : ℕ :=
  if (entryAt s.mem (pdt + 4 * pdIndex virt)).present then
    (entryAt s.mem (pdt + 4 * pdIndex virt)).frame
  else (bitmapAllocPage s.bitmap).1

/-- What one step of `mmu_map_pages` writes, in a directory that is not the table. -/
theorem mapPage_entrySet {s : Mmu} {pdt virt : ℕ} (real : ℕ) (rw user : Bool) (hd : IsPage pdt)
    (ht : IsPage (tableFor s pdt virt)) (hne : pdt ≠ tableFor s pdt virt) (hv : virt < 4294967296) :
    EntrySet s.mem (mapPage s pdt real virt rw user).mem pdt (pdIndex virt) (ptIndex virt)
      (tableFor s pdt virt) real rw user := by
  have hi : pdIndex virt < 1024 := by rw [pdIndex]; omega
  have hj : ptIndex virt < 1024 := by rw [ptIndex]; omega
  unfold tableFor at ht hne ⊢
  rw [mapPage]
  by_cases hpres : (entryAt s.mem (pdt + 4 * pdIndex virt)).present = true
  · rw [if_pos hpres] at ht hne ⊢
    rw [if_pos hpres]
    exact entrySet_of_table real rw user hd ht hne hi hj (fun _ _ _ _ _ => rfl) fun k _ => by rw [if_pos hpres]
  · rw [if_neg hpres] at ht hne ⊢
    rw [if_neg hpres]
    exact entrySet_of_table real rw user hd ht hne hi hj (fun hq hqt => samePage_fill ht hq hqt 0)
      fun k hk => by rw [if_neg hpres]; exact entryAt_fill ht hk

/-- `s'` is `s` after the page with indices `i` and `j` was mapped to `real` in `pdt`,
with its entry in the table `t`. -/
structure PageMapped (s s' : Mmu) (pdt i j t real : ℕ) (rw user : Bool) : Prop where
  region : s'.bitmap.Region
  marked : ∀ {p}, s.bitmap.Marked p → s'.bitmap.Marked p
  page : IsPage t
  table : (entryAt s.mem (pdt + 4 * i)).present = true ∧ t = (entryAt s.mem (pdt + 4 * i)).frame ∧
      s'.bitmap = s.bitmap ∨
    (entryAt s.mem (pdt + 4 * i)).present = false ∧ (t = 0 ∨ s.bitmap.Grants s'.bitmap t 1)
  entry : entryAt s'.mem (pdt + 4 * i) = (entryAt s.mem (pdt + 4 * i)).mapTo rw user t
  other : ∀ k < 1024, k ≠ i → entryAt s'.mem (pdt + 4 * k) = entryAt s.mem (pdt + 4 * k)
  same : ∀ {q}, IsPage q → q ≠ pdt → q ≠ t → SamePage s'.mem s.mem q
  mapped : ∃ e : PageEntry, entryAt s'.mem (t + 4 * j) = e.mapTo rw user real
  pages : ∀ k < 1024, k ≠ j →
    if (entryAt s.mem (pdt + 4 * i)).present then
      entryAt s'.mem (t + 4 * k) = entryAt s.mem (t + 4 * k)
    else (entryAt s'.mem (t + 4 * k)).present = false
  rest : { s' with mem := s.mem, bitmap := s.bitmap } = s

section MapPage
variable {s : Mmu} {pdt real virt : ℕ} {rw user : Bool}

/-- The two writes, once the table is there. -/
theorem pageMapped_of_table {s₁ : Mmu} {i j t : ℕ} (hd : IsPage pdt) (ht : IsPage t) (hne : pdt ≠ t)
    (hi : i < 1024) (hj : j < 1024)
    (hregion : s₁.bitmap.Region) (hmarked : ∀ {p}, s.bitmap.Marked p → s₁.bitmap.Marked p)
    (htable : (entryAt s.mem (pdt + 4 * i)).present = true ∧
        t = (entryAt s.mem (pdt + 4 * i)).frame ∧ s₁.bitmap = s.bitmap ∨
      (entryAt s.mem (pdt + 4 * i)).present = false ∧ (t = 0 ∨ s.bitmap.Grants s₁.bitmap t 1))
    (hsame : ∀ {q}, IsPage q → q ≠ t → SamePage s₁.mem s.mem q)
    (hpages : ∀ k < 1024, if (entryAt s.mem (pdt + 4 * i)).present then
        entryAt s₁.mem (t + 4 * k) = entryAt s.mem (t + 4 * k)
      else (entryAt s₁.mem (t + 4 * k)).present = false)
    (hrest : { s₁ with mem := s.mem, bitmap := s.bitmap } = s) :
    PageMapped s
      { s₁ with
        mem := setEntry (setEntry s₁.mem (pdt + 4 * i)
            ((entryAt s₁.mem (pdt + 4 * i)).mapTo rw user t)) (t + 4 * j)
          ((entryAt (setEntry s₁.mem (pdt + 4 * i)
            ((entryAt s₁.mem (pdt + 4 * i)).mapTo rw user t)) (t + 4 * j)).mapTo rw user real) }
      pdt i j t real rw user := by
  have hset := entrySet_of_table real rw user hd ht hne hi hj hsame hpages
  exact ⟨hregion, hmarked, ht, htable, hset.entry, hset.other, hset.same, hset.mapped, hset.pages,
    hrest⟩

/-- One step of `mmu_map_pages` in a directory that is none of its own tables. -/
theorem mapPage_spec (real : ℕ) (rw user : Bool) (hr : s.bitmap.Region) (hd : s.bitmap.Marked pdt) (hd0 : pdt ≠ 0)
    (hself : ¬ IsTable s.mem pdt 1024 pdt) (hv : virt < 4294967296) :
    ∃ t, pdt ≠ t ∧ PageMapped s (mapPage s pdt real virt rw user) pdt (pdIndex virt) (ptIndex virt) t
      real rw user := by
  have hi : pdIndex virt < 1024 := by rw [pdIndex]; omega
  have hj : ptIndex virt < 1024 := by rw [ptIndex]; omega
  have hdp := hd.isPage hr
  by_cases hpres : (entryAt s.mem (pdt + 4 * pdIndex virt)).present = true
  · have hne : pdt ≠ (entryAt s.mem (pdt + 4 * pdIndex virt)).frame := by
      intro he
      exact hself ⟨_, hi, hpres, he.symm⟩
    refine ⟨_, hne, ?_⟩
    rw [mapPage, if_pos hpres]
    exact pageMapped_of_table hdp (PageEntry.isPage_frame _) hne hi hj hr id
      (.inl ⟨hpres, rfl, rfl⟩) (fun _ _ _ _ _ => rfl) (fun k _ => by rw [if_pos hpres]) rfl
  · have hz := allocZeroed_spec hr
    have hne : pdt ≠ (allocZeroed s).1 := by
      rcases hz.fresh with h0 | hgr
      · rwa [h0]
      · exact fun he => hgr.not_marked (he ▸ hd)
    refine ⟨_, hne, ?_⟩
    rw [mapPage, if_neg hpres]
    exact pageMapped_of_table hdp hz.page hne hi hj hz.region hz.marked
      (.inr ⟨by simpa using hpres, hz.fresh⟩) hz.same
      (fun k hk => by rw [if_neg hpres]; exact hz.zero k hk) hz.rest

end MapPage

end DosKernel
