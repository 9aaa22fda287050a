import DosKernel.Paging.Translation

/-! The rights of other pages when `mmu_map_pages` runs. Each of its steps assigns the
`rw` and `user` bits of a directory entry, which hold for all 1024 pages behind it, and a
table that cannot be allocated is the page at `NULL`, which several entries may share. -/

namespace DosKernel

open Lib

/-- The address that the step `k` of a call maps. -/
def stepAddr (virt k : ℕ) : ℕ := (virt + k * bitmapPageSize) % word32

/-- A directory in use: its tables are distinct frames that the bitmap has given out, or
the page at `NULL` where it had none. -/
structure Tables (s : Mmu) (pdt : ℕ) : Prop where
  region : s.bitmap.Region
  start : s.bitmap.start ≠ 0
  dir : s.bitmap.Marked pdt
  nonnull : pdt ≠ 0
  table : ∀ k < 1024, (entryAt s.mem (pdt + 4 * k)).present = true →
    (entryAt s.mem (pdt + 4 * k)).frame = 0 ∨
      s.bitmap.Marked (entryAt s.mem (pdt + 4 * k)).frame ∧ (entryAt s.mem (pdt + 4 * k)).frame ≠ pdt
  distinct : ∀ k < 1024, ∀ l < 1024, (entryAt s.mem (pdt + 4 * k)).present = true →
    (entryAt s.mem (pdt + 4 * l)).present = true →
    (entryAt s.mem (pdt + 4 * k)).frame = (entryAt s.mem (pdt + 4 * l)).frame →
    (entryAt s.mem (pdt + 4 * k)).frame ≠ 0 → k = l

/-- A directory all of whose tables were allocated. -/
structure Directory (s : Mmu) (pdt : ℕ) : Prop extends Tables s pdt where
  allocated : ∀ k < 1024, (entryAt s.mem (pdt + 4 * k)).present = true →
    (entryAt s.mem (pdt + 4 * k)).frame ≠ 0

section Addresses
variable {virt k len v : ℕ}

@[simp] theorem stepAddr_zero (hv : virt < word32) : stepAddr virt 0 = virt := by
  simp only [stepAddr, Nat.zero_mul, Nat.add_zero]
  exact Nat.mod_eq_of_lt hv

theorem stepAddr_lt (virt k : ℕ) : stepAddr virt k < word32 := Nat.mod_lt _ (by decide)

theorem stepAddr_succ (virt k : ℕ) :
    stepAddr ((virt + bitmapPageSize) % word32) k = stepAddr virt (k + 1) := by
  simp only [stepAddr, bitmapPageSize, word32]
  omega

/-- The next page is the next one in the same table unless this one is the last. -/
theorem next_indices (hv : virt < word32) :
    ptIndex virt < 1023 ∧ pdIndex ((virt + bitmapPageSize) % word32) = pdIndex virt ∧
      ptIndex ((virt + bitmapPageSize) % word32) = ptIndex virt + 1 ∨
    ptIndex virt = 1023 ∧ ptIndex ((virt + bitmapPageSize) % word32) = 0 := by
  simp only [pdIndex, ptIndex, bitmapPageSize, word32] at *
  omega

end Addresses

/-! ### One step -/

/-- An allocation of a page fails without a change, or gives a new frame. -/
theorem bitmapAllocPage_cases {b : Bitmap} (hr : b.Region) (h0 : b.start ≠ 0) :
    bitmapAllocPage b = (0, b) ∨ (bitmapAllocPage b).1 ≠ 0 ∧
      b.Grants (bitmapAllocPage b).2 (bitmapAllocPage b).1 1 ∧
      (bitmapAllocPage b).2.start = b.start := by
  rw [bitmapAllocPage_eq]
  rcases bitmapAllocContiguousPages_spec b le_rfl with ⟨he, -⟩ | ⟨f, b', he, hfree, hm, -⟩
  · exact .inl he
  · have hin := (hfree f le_rfl (by omega)).1
    have h2 := hr.top
    have hne : (bitmapAllocContiguousPages b 1).1 ≠ 0 := by
      rw [he]
      simp only [bitmapPageSize, word32]
      omega
    refine .inr ⟨hne, bitmapAllocContiguousPages_grants hr le_rfl hne, ?_⟩
    rw [he]
    exact hm.start_eq

section Step
variable {s : Mmu} {pdt real virt v : ℕ} {rw user : Bool}

theorem mapPage_bitmap (s : Mmu) (pdt real virt : ℕ) (rw user : Bool) :
    (mapPage s pdt real virt rw user).bitmap =
      if (entryAt s.mem (pdt + 4 * pdIndex virt)).present then s.bitmap
      else (bitmapAllocPage s.bitmap).2 := by
  rw [mapPage]
  by_cases hpres : (entryAt s.mem (pdt + 4 * pdIndex virt)).present = true
  · rw [if_pos hpres, if_pos hpres]
  · rw [if_neg hpres, if_neg hpres]
    rfl

/-- What one step does to a directory in use. -/
structure Stepped (s s' : Mmu) (pdt real virt : ℕ) (rw user : Bool) : Prop where
  tables : Tables s' pdt
  set : EntrySet s.mem s'.mem pdt (pdIndex virt) (ptIndex virt) (tableFor s pdt virt) real rw user
  page : IsPage (tableFor s pdt virt)
  others : ∀ k < 1024, k ≠ pdIndex virt → (entryAt s.mem (pdt + 4 * k)).present = true →
    (entryAt s.mem (pdt + 4 * k)).frame = tableFor s pdt virt → tableFor s pdt virt = 0

theorem Tables.step (h : Tables s pdt) (hv : virt < word32) (real : ℕ) (rw user : Bool) :
    Stepped s (mapPage s pdt real virt rw user) pdt real virt rw user := by
  have hi := pdIndex_lt hv
  have hd := h.dir.isPage h.region
  -- the table is the one there was, `NULL`, or a new frame
  have htable : IsPage (tableFor s pdt virt) ∧ pdt ≠ tableFor s pdt virt ∧
      (tableFor s pdt virt = 0 ∨
        (mapPage s pdt real virt rw user).bitmap.Marked (tableFor s pdt virt)) ∧
      (∀ k < 1024, k ≠ pdIndex virt → (entryAt s.mem (pdt + 4 * k)).present = true →
        (entryAt s.mem (pdt + 4 * k)).frame = tableFor s pdt virt → tableFor s pdt virt = 0) ∧
      (mapPage s pdt real virt rw user).bitmap.Region ∧
      (mapPage s pdt real virt rw user).bitmap.start ≠ 0 ∧
      ∀ p, s.bitmap.Marked p → (mapPage s pdt real virt rw user).bitmap.Marked p := by
    rw [mapPage_bitmap]
    cases hpres : (entryAt s.mem (pdt + 4 * pdIndex virt)).present with
    | true =>
      rw [tableFor_of_present hpres, if_pos rfl]
      refine ⟨PageEntry.isPage_frame _, ?_, (h.table _ hi hpres).imp_right And.left,
        fun k hk hne hp he => ?_, h.region, h.start, fun _ hp => hp⟩
      · rcases h.table _ hi hpres with h0 | ⟨-, hne⟩
        · rw [h0]
          exact h.nonnull
        · exact hne.symm
      · by_contra h0
        exact hne (h.distinct k hk _ hi hp hpres he fun h' => h0 (he.symm.trans h'))
    | false =>
      rw [tableFor_of_absent hpres, if_neg (by simp)]
      rcases bitmapAllocPage_cases h.region h.start with he | ⟨h0, hgr, hstart⟩
      · rw [he]
        exact ⟨isPage_zero, h.nonnull, .inl rfl, fun _ _ _ _ _ => rfl, h.region, h.start,
          fun _ hp => hp⟩
      · refine ⟨hgr.isPage, fun he => hgr.not_marked (he ▸ h.dir), .inr (hgr.marked_iff.mpr (.inr rfl)),
          fun k hk _ hp he => ?_, hgr.region, hstart ▸ h.start, fun p hp => hgr.marked_iff.mpr (.inl hp)⟩
        rcases h.table k hk hp with hk0 | ⟨hm, -⟩
        · exact he.symm.trans hk0
        · exact absurd (he ▸ hm) hgr.not_marked
  obtain ⟨hpage, hne, hmarked, hothers, hregion, hstart, hkeep⟩ := htable
  have hset := mapPage_entrySet real rw user hd hpage hne hv
  refine ⟨⟨hregion, hstart, hkeep _ h.dir, h.nonnull, fun k hk hp => ?_, fun k hk l hl hpk hpl he h0 => ?_⟩,
    hset, hpage, hothers⟩
  · by_cases hki : k = pdIndex virt
    · rw [hki, hset.entry, PageEntry.frame_mapTo _ _ _ hpage]
      exact hmarked.imp_right fun hm => ⟨hm, hne.symm⟩
    · rw [hset.other k hk hki] at hp ⊢
      exact (h.table k hk hp).imp_right fun hm => ⟨hkeep _ hm.1, hm.2⟩
  · by_cases hki : k = pdIndex virt
    · by_cases hli : l = pdIndex virt
      · rw [hki, hli]
      · rw [hki, hset.entry, PageEntry.frame_mapTo _ _ _ hpage] at he h0
        rw [hset.other l hl hli] at hpl he
        exact absurd (hothers l hl hli hpl he.symm) h0
    · rw [hset.other k hk hki] at hpk he h0
      by_cases hli : l = pdIndex virt
      · rw [hli, hset.entry, PageEntry.frame_mapTo _ _ _ hpage] at he
        exact absurd (he.trans (hothers k hk hki hpk he)) h0
      · rw [hset.other l hl hli] at hpl he
        exact h.distinct k hk l hl hpk hpl he h0

namespace Stepped

variable {s' : Mmu}

theorem self (h : Stepped s s' pdt real virt rw user) :
    entryAt s'.mem (pdt + 4 * pdIndex virt) =
        (entryAt s.mem (pdt + 4 * pdIndex virt)).mapTo rw user (tableFor s pdt virt) ∧
      (entryAt s'.mem (pdt + 4 * pdIndex virt)).frame = tableFor s pdt virt := by
  rw [h.set.entry, PageEntry.frame_mapTo _ _ _ h.page]
  exact ⟨rfl, rfl⟩

/-- Entries that are present stay present and keep their table. -/
theorem keeps (h : Stepped s s' pdt real virt rw user) {k : ℕ} (hk : k < 1024)
    (hp : (entryAt s.mem (pdt + 4 * k)).present = true) :
    (entryAt s'.mem (pdt + 4 * k)).present = true ∧
      (entryAt s'.mem (pdt + 4 * k)).frame = (entryAt s.mem (pdt + 4 * k)).frame := by
  by_cases hki : k = pdIndex virt
  · subst hki
    rw [h.self.2, tableFor_of_present hp, h.self.1]
    exact ⟨rfl, rfl⟩
  · rw [h.set.other k hk hki]
    exact ⟨hp, rfl⟩

/-- A page with its directory entry elsewhere, unless both lead to `NULL`. -/
theorem pageOf_other (h : Stepped s s' pdt real virt rw user) (ht : Tables s pdt) (hv : v < word32)
    (hi : pdIndex v ≠ pdIndex virt)
    (hnull : (entryAt s.mem (pdt + 4 * pdIndex v)).present = true →
      (entryAt s.mem (pdt + 4 * pdIndex v)).frame ≠ 0 ∨ tableFor s pdt virt ≠ 0) :
    pageOf s'.mem pdt v = pageOf s.mem pdt v := by
  refine h.set.pageOf_other hv hi fun hp => ⟨fun he => ?_, fun he => ?_⟩
  · rcases ht.table _ (pdIndex_lt hv) hp with h0 | ⟨-, hne⟩
    · exact ht.nonnull (he.symm.trans h0)
    · exact hne he
  · have h0 := h.others _ (pdIndex_lt hv) hi hp he
    exact (hnull hp).elim (fun hne => hne (he.trans h0)) fun hne => hne h0

theorem pageOf_beside (h : Stepped s s' pdt real virt rw user) (hi : pdIndex v = pdIndex virt)
    (hout : v / 4096 ≠ virt / 4096) : pageOf s'.mem pdt v = pageOf s.mem pdt v :=
  h.set.pageOf_beside h.page (fun hp => tableFor_of_present hp) hi
    fun hj => hout (indices_iff.mp ⟨hi, hj⟩)

end Stepped

end Step

/-! ### The whole call -/

/-- Pages behind a table at `NULL` have the rights of the call. -/
def NullBits (m : Memory) (pdt : ℕ) (rw user : Bool) : Prop :=
  ∀ v < word32, (entryAt m (pdt + 4 * pdIndex v)).present = true →
    (entryAt m (pdt + 4 * pdIndex v)).frame = 0 →
    ∀ e : PageEntry, pageOf m pdt v = some e → e.rw = rw ∧ e.user = user

/-- What a call does to the directory entries, and to the pages outside of its range that
have no table at `NULL`. -/
structure MapCalled (s s' : Mmu) (pdt virt len : ℕ) (rw user : Bool) : Prop where
  tables : Tables s' pdt
  visited : ∀ k < len, (entryAt s'.mem (pdt + 4 * pdIndex (stepAddr virt k))).present = true ∧
    (entryAt s'.mem (pdt + 4 * pdIndex (stepAddr virt k))).rw = rw ∧
    (entryAt s'.mem (pdt + 4 * pdIndex (stepAddr virt k))).user = user
  unvisited : ∀ i < 1024, (∀ k < len, pdIndex (stepAddr virt k) ≠ i) →
    entryAt s'.mem (pdt + 4 * i) = entryAt s.mem (pdt + 4 * i)
  keeps : ∀ i < 1024, (entryAt s.mem (pdt + 4 * i)).present = true →
    (entryAt s'.mem (pdt + 4 * i)).present = true ∧
      (entryAt s'.mem (pdt + 4 * i)).frame = (entryAt s.mem (pdt + 4 * i)).frame
  same : ∀ v < word32, (∀ k < len, v / 4096 ≠ stepAddr virt k / 4096) →
    ((entryAt s'.mem (pdt + 4 * pdIndex v)).present = true →
      (entryAt s'.mem (pdt + 4 * pdIndex v)).frame ≠ 0) →
    pageOf s'.mem pdt v = pageOf s.mem pdt v
  null : NullBits s.mem pdt rw user → NullBits s'.mem pdt rw user

section Call
variable {s : Mmu} {pdt virt len v : ℕ} {rw user : Bool}

theorem Stepped.nullBits {s' : Mmu} {real : ℕ} (h : Stepped s s' pdt real virt rw user)
    (ht : Tables s pdt) (hn : NullBits s.mem pdt rw user) : NullBits s'.mem pdt rw user := by
  intro v hv hp h0 e he
  by_cases hpage : v / 4096 = virt / 4096
  · obtain ⟨hi, hj⟩ := indices_iff.mpr hpage
    obtain ⟨e', he'⟩ := h.set.pageOf_eq h.page hi hj
    obtain rfl := Option.some.inj (he.symm.trans he')
    exact ⟨rfl, rfl⟩
  · by_cases hi : pdIndex v = pdIndex virt
    · rw [h.pageOf_beside hi hpage] at he
      have hpres := (pageOf_eq_some.mp he).1
      exact hn v hv hpres ((h.keeps (pdIndex_lt hv) hpres).2.symm.trans h0) e he
    · rw [h.set.other _ (pdIndex_lt hv) hi] at hp h0
      by_cases ht0 : tableFor s pdt virt = 0
      · -- the two directory entries share the page at `NULL`
        obtain ⟨-, hep, hslot⟩ := pageOf_eq_some.mp he
        rw [h.set.other _ (pdIndex_lt hv) hi, h0] at hslot
        by_cases hj : ptIndex v = ptIndex virt
        · obtain ⟨e', he'⟩ := h.set.mapped
          rw [hj] at hslot
          rw [ht0, hslot] at he'
          rw [he']
          exact ⟨rfl, rfl⟩
        · have hpages := h.set.pages _ (ptIndex_lt v) hj
          rw [ht0, hslot] at hpages
          split_ifs at hpages with hpres
          · refine hn v hv hp h0 e (pageOf_eq_some.mpr ⟨hp, hep, ?_⟩)
            rw [h0]
            exact hpages.symm
          · rw [hpages] at hep
            cases hep
      · rw [h.pageOf_other ht hv hi fun _ => .inr ht0] at he
        exact hn v hv hp h0 e he

theorem Tables.call (h : Tables s pdt) (hv : virt < word32) (real len : ℕ) (rw user : Bool) :
    MapCalled s (mmuMapPages s pdt real virt len rw user) pdt virt len rw user := by
  induction len generalizing s real virt with
  | zero =>
    exact ⟨h, fun _ hk => absurd hk (by omega), fun _ _ _ => rfl, fun _ _ hp => ⟨hp, rfl⟩,
      fun _ _ _ _ => rfl, id⟩
  | succ len ih =>
    have hstep := h.step hv real rw user
    have hcall := ih hstep.tables (Nat.mod_lt (virt + bitmapPageSize) (by decide))
      ((real + bitmapPageSize) % word32)
    rw [mmuMapPages]
    generalize mapPage s pdt real virt rw user = s₁ at hstep hcall ⊢
    generalize mmuMapPages s₁ pdt _ _ len rw user = s' at hcall ⊢
    have hkeeps : ∀ i < 1024, (entryAt s.mem (pdt + 4 * i)).present = true →
        (entryAt s'.mem (pdt + 4 * i)).present = true ∧
          (entryAt s'.mem (pdt + 4 * i)).frame = (entryAt s.mem (pdt + 4 * i)).frame := by
      intro i hi hp
      obtain ⟨hp₁, he₁⟩ := hstep.keeps hi hp
      obtain ⟨hp', he'⟩ := hcall.keeps i hi hp₁
      exact ⟨hp', he'.trans he₁⟩
    refine ⟨hcall.tables, fun k hk => ?_, fun i hi hout => ?_, hkeeps, fun v hv' hout hnull => ?_,
      fun hn => hcall.null (hstep.nullBits h hn)⟩
    · cases k with
      | succ k =>
        rw [← stepAddr_succ]
        exact hcall.visited k (by omega)
      | zero =>
        rw [stepAddr_zero hv]
        -- the bits stay unless a later step assigns them again
        by_cases hagain : ∃ l < len, pdIndex (stepAddr ((virt + bitmapPageSize) % word32) l) = pdIndex virt
        · obtain ⟨l, hl, he⟩ := hagain
          rw [← he]
          exact hcall.visited l hl
        · rw [hcall.unvisited _ (pdIndex_lt hv) fun l hl he => hagain ⟨l, hl, he⟩, hstep.self.1]
          exact ⟨rfl, rfl, rfl⟩
    · have hfirst := hout 0 (by omega)
      rw [stepAddr_zero hv] at hfirst
      rw [hcall.unvisited i hi fun k hk => ?_, hstep.set.other i hi hfirst.symm]
      rw [stepAddr_succ]
      exact hout (k + 1) (by omega)
    · have hfirst := hout 0 (by omega)
      rw [stepAddr_zero hv] at hfirst
      have hrest : pageOf s'.mem pdt v = pageOf s₁.mem pdt v :=
        hcall.same v hv' (fun k hk => by rw [stepAddr_succ]; exact hout (k + 1) (by omega)) hnull
      by_cases hi : pdIndex v = pdIndex virt
      · exact hrest.trans (hstep.pageOf_beside hi hfirst)
      · refine hrest.trans (hstep.pageOf_other h hv' hi fun hp => .inl ?_)
        obtain ⟨hp', he⟩ := hkeeps _ (pdIndex_lt hv') hp
        exact he ▸ hnull hp'

end Call

end DosKernel
