import DosKernel.Paging.Mapping

/-! What `mmu_map_pages` and `mmu_unmap_pages` do to the translation of addresses: the
range gets new entries, and the walk of every other address finds the entry it found
before, since no two directory entries lead to the same table. -/

namespace DosKernel

open Lib

/-- A page directory whose page tables are distinct frames, none of them the directory. -/
structure Tree (m : Memory) (pdt : ℕ) : Prop where
  page : IsPage pdt
  apart : ¬ IsTable m pdt 1024 pdt
  distinct : ∀ k < 1024, ∀ l < 1024, (entryAt m (pdt + 4 * k)).present = true →
    (entryAt m (pdt + 4 * l)).present = true →
    (entryAt m (pdt + 4 * k)).frame = (entryAt m (pdt + 4 * l)).frame → k = l

/-- The new table, when the step for `virt` needs one, is a frame that the directory does
not use. -/
def FreshTable (s : Mmu) (pdt virt : ℕ) : Prop :=
  (entryAt s.mem (pdt + 4 * pdIndex virt)).present = false →
    IsPage (bitmapAllocPage s.bitmap).1 ∧ (bitmapAllocPage s.bitmap).1 ≠ pdt ∧
      ¬ IsTable s.mem pdt 1024 (bitmapAllocPage s.bitmap).1

/-- That holds at every step of `mmu_map_pages`. -/
def FreshTables (s : Mmu) (pdt real virt : ℕ) (rw user : Bool) : (len : ℕ) → Prop
  | 0 => True
  | len + 1 => FreshTable s pdt virt ∧
    FreshTables (mapPage s pdt real virt rw user) pdt ((real + bitmapPageSize) % word32)
      ((virt + bitmapPageSize) % word32) rw user len

theorem pdIndex_lt {v : ℕ} (hv : v < word32) : pdIndex v < 1024 := by
  rw [word32] at hv
  rw [pdIndex]
  omega

theorem ptIndex_lt (v : ℕ) : ptIndex v < 1024 := Nat.mod_lt _ (by decide)

theorem indices_iff {v w : ℕ} : pdIndex v = pdIndex w ∧ ptIndex v = ptIndex w ↔ v / 4096 = w / 4096 := by
  simp only [pdIndex, ptIndex]
  omega

section OneEntry
variable {m m' : Memory} {pdt i j t real v : ℕ} {rw user : Bool}

theorem EntrySet.pageOf_eq (h : EntrySet m m' pdt i j t real rw user) (ht : IsPage t)
    (hi : pdIndex v = i) (hj : ptIndex v = j) :
    ∃ e : PageEntry, pageOf m' pdt v = some (e.mapTo rw user real) := by
  obtain ⟨e, he⟩ := h.mapped
  refine ⟨e, pageOf_eq_some.mpr ?_⟩
  rw [hi, hj, h.entry, PageEntry.frame_mapTo _ _ _ ht]
  exact ⟨rfl, rfl, he⟩

/-- An address whose directory entry leads elsewhere. -/
theorem EntrySet.pageOf_other (h : EntrySet m m' pdt i j t real rw user) (hv : v < word32)
    (hi : pdIndex v ≠ i) (halone : (entryAt m (pdt + 4 * pdIndex v)).present = true →
      (entryAt m (pdt + 4 * pdIndex v)).frame ≠ pdt ∧ (entryAt m (pdt + 4 * pdIndex v)).frame ≠ t) :
    pageOf m' pdt v = pageOf m pdt v := by
  simp only [pageOf, h.other _ (pdIndex_lt hv) hi]
  by_cases hpres : (entryAt m (pdt + 4 * pdIndex v)).present = true
  · obtain ⟨hd, ht⟩ := halone hpres
    rw [if_pos hpres, if_pos hpres, entryAt_congr (PageEntry.isPage_frame _) (ptIndex_lt v)
      (h.same (PageEntry.isPage_frame _) hd ht)]
  · rw [if_neg hpres, if_neg hpres]

/-- Another page of the same table. -/
theorem EntrySet.pageOf_beside (h : EntrySet m m' pdt i j t real rw user) (ht : IsPage t)
    (htable : (entryAt m (pdt + 4 * i)).present = true → t = (entryAt m (pdt + 4 * i)).frame)
    (hi : pdIndex v = i) (hj : ptIndex v ≠ j) : pageOf m' pdt v = pageOf m pdt v := by
  have hslot := h.pages (ptIndex v) (ptIndex_lt v) hj
  simp only [pageOf, hi, h.entry, PageEntry.frame_mapTo _ _ _ ht]
  by_cases hpres : (entryAt m (pdt + 4 * i)).present = true
  · rw [if_pos hpres] at hslot ⊢
    rw [hslot, htable hpres]
    rfl
  · rw [if_neg hpres] at hslot ⊢
    rw [hslot]
    rfl

/-- The new table leads to no other directory entry. -/
theorem EntrySet.tree (h : EntrySet m m' pdt i j t real rw user) (htree : Tree m pdt) (ht : IsPage t)
    (hne : pdt ≠ t) (halone : ∀ k < 1024, k ≠ i → (entryAt m (pdt + 4 * k)).present = true →
      (entryAt m (pdt + 4 * k)).frame ≠ t) : Tree m' pdt := by
  have hentry : ∀ k < 1024, (entryAt m' (pdt + 4 * k)).present = true → k = i ∧
      (entryAt m' (pdt + 4 * k)).frame = t ∨ k ≠ i ∧ (entryAt m (pdt + 4 * k)).present = true ∧
      (entryAt m' (pdt + 4 * k)).frame = (entryAt m (pdt + 4 * k)).frame := by
    intro k hk hp
    by_cases hki : k = i
    · rw [hki, h.entry, PageEntry.frame_mapTo _ _ _ ht]
      exact .inl ⟨rfl, rfl⟩
    · rw [h.other k hk hki] at hp ⊢
      exact .inr ⟨hki, hp, rfl⟩
  refine ⟨htree.page, ?_, fun k hk l hl hpk hpl heq => ?_⟩
  · rintro ⟨k, hk, hp, hf⟩
    rcases hentry k hk hp with ⟨-, he⟩ | ⟨-, hp', he⟩
    · exact hne (hf.symm.trans he)
    · exact htree.apart ⟨k, hk, hp', he.symm.trans hf⟩
  · rcases hentry k hk hpk with ⟨rfl, hek⟩ | ⟨hki, hpk', hek⟩
    · rcases hentry l hl hpl with ⟨rfl, -⟩ | ⟨hli, hpl', hel⟩
      · rfl
      · exact absurd ((hel.symm.trans heq.symm).trans hek) (halone l hl hli hpl')
    · rcases hentry l hl hpl with ⟨rfl, hel⟩ | ⟨-, hpl', hel⟩
      · exact absurd ((hek.symm.trans heq).trans hel) (halone k hk hki hpk')
      · exact htree.distinct k hk l hl hpk' hpl' ((hek.symm.trans heq).trans hel)

end OneEntry

/-! ### Mapping -/

section Map
variable {s : Mmu} {pdt real virt v len : ℕ} {rw user : Bool}

theorem tableFor_of_present (hpres : (entryAt s.mem (pdt + 4 * pdIndex virt)).present = true) :
    tableFor s pdt virt = (entryAt s.mem (pdt + 4 * pdIndex virt)).frame := if_pos hpres

theorem tableFor_of_absent (hpres : (entryAt s.mem (pdt + 4 * pdIndex virt)).present = false) :
    tableFor s pdt virt = (bitmapAllocPage s.bitmap).1 := by
  rw [tableFor, hpres]
  rfl

/-- The table of a step is a page that belongs to no other directory entry. -/
theorem Tree.tableFor (h : Tree s.mem pdt) (hfresh : FreshTable s pdt virt) (hv : virt < word32) :
    IsPage (tableFor s pdt virt) ∧ pdt ≠ tableFor s pdt virt ∧
      ∀ k < 1024, k ≠ pdIndex virt → (entryAt s.mem (pdt + 4 * k)).present = true →
        (entryAt s.mem (pdt + 4 * k)).frame ≠ tableFor s pdt virt := by
  cases hpres : (entryAt s.mem (pdt + 4 * pdIndex virt)).present with
  | true =>
    rw [tableFor_of_present hpres]
    refine ⟨PageEntry.isPage_frame _, fun he => ?_, fun k hk hne hp he => ?_⟩
    · exact h.apart ⟨_, pdIndex_lt hv, hpres, he.symm⟩
    · exact hne (h.distinct k hk _ (pdIndex_lt hv) hp hpres he)
  | false =>
    obtain ⟨hpage, hne, htable⟩ := hfresh hpres
    rw [tableFor_of_absent hpres]
    exact ⟨hpage, hne.symm, fun k hk _ hp he => htable ⟨k, hk, hp, he⟩⟩

/-- One step of `mmu_map_pages`: the page of `virt` and nothing else. -/
structure StepMapped (s s' : Mmu) (pdt real virt : ℕ) (rw user : Bool) : Prop where
  tree : Tree s'.mem pdt
  mapped : ∀ v, v / 4096 = virt / 4096 →
    ∃ e : PageEntry, pageOf s'.mem pdt v = some (e.mapTo rw user real)
  same : ∀ v < word32, v / 4096 ≠ virt / 4096 → pageOf s'.mem pdt v = pageOf s.mem pdt v

theorem mapPage_step (h : Tree s.mem pdt) (hfresh : FreshTable s pdt virt) (hv : virt < word32)
    (real : ℕ) (rw user : Bool) :
    StepMapped s (mapPage s pdt real virt rw user) pdt real virt rw user := by
  obtain ⟨ht, hne, halone⟩ := h.tableFor hfresh hv
  have hset := mapPage_entrySet real rw user h.page ht hne hv
  refine ⟨hset.tree h ht hne halone, fun v hpage => ?_, fun v hv' hpage => ?_⟩
  · obtain ⟨hi, hj⟩ := indices_iff.mpr hpage
    exact hset.pageOf_eq ht hi hj
  · by_cases hi : pdIndex v = pdIndex virt
    · refine hset.pageOf_beside ht (fun hp => tableFor_of_present hp) hi fun hj => ?_
      exact hpage (indices_iff.mp ⟨hi, hj⟩)
    · refine hset.pageOf_other hv' hi fun hp => ⟨fun he => ?_, halone _ (pdIndex_lt hv') hi hp⟩
      exact h.apart ⟨_, pdIndex_lt hv', hp, he⟩

/-- The whole call: the walk of an address outside of the pages it maps finds the entry it
found before. -/
theorem mmuMapPages_same (h : Tree s.mem pdt) (hv : virt < word32)
    (hfresh : FreshTables s pdt real virt rw user len) :
    Tree (mmuMapPages s pdt real virt len rw user).mem pdt ∧
    ∀ v < word32, (∀ k < len, v / 4096 ≠ (virt + k * bitmapPageSize) % word32 / 4096) →
      pageOf (mmuMapPages s pdt real virt len rw user).mem pdt v = pageOf s.mem pdt v := by
  induction len generalizing s real virt with
  | zero => exact ⟨h, fun _ _ _ => rfl⟩
  | succ len ih =>
    have hstep := mapPage_step h hfresh.1 hv real rw user
    obtain ⟨htree, hsame⟩ := ih hstep.tree (Nat.mod_lt _ (by decide)) hfresh.2
    rw [mmuMapPages]
    refine ⟨htree, fun v hv' hout => (hsame v hv' fun k hk => ?_).trans (hstep.same v hv' ?_)⟩
    · have hnext := hout (k + 1) (by omega)
      rwa [nextPage_add]
    · have hfirst := hout 0 (by omega)
      rwa [Nat.zero_mul, Nat.add_zero, Nat.mod_eq_of_lt hv] at hfirst

theorem mmuMapPages_mapped (h : Tree s.mem pdt) (hreal : real % 4096 = 0) (hvirt : virt % 4096 = 0)
    (hv : virt + len * 4096 ≤ word32) (hr : real + len * 4096 ≤ word32)
    (hfresh : FreshTables s pdt real virt rw user len) (hv1 : virt ≤ v)
    (hv2 : v < virt + len * 4096) :
    mmuGetPhysicalAddressPdt (mmuMapPages s pdt real virt len rw user).mem v pdt = real + (v - virt) ∧
      mmuIsMapped (mmuMapPages s pdt real virt len rw user).mem pdt v = true := by
  induction len generalizing s real virt with
  | zero => omega
  | succ len ih =>
    simp only [word32] at hv hr
    have hstep := mapPage_step h hfresh.1 (show virt < word32 by simp only [word32]; omega) real rw user
    have hnext : len ≠ 0 → (virt + bitmapPageSize) % word32 = virt + 4096 ∧
        (real + bitmapPageSize) % word32 = real + 4096 := by
      simp only [bitmapPageSize, word32]
      omega
    have hlt : v < word32 := by
      rw [word32]
      omega
    rw [mmuMapPages]
    by_cases hfirst : v / 4096 = virt / 4096
    · have hkeep := (mmuMapPages_same hstep.tree (Nat.mod_lt _ (by decide)) hfresh.2).2 v hlt
        fun k hk => by
          rw [(hnext (by omega)).1]
          simp only [bitmapPageSize, word32]
          omega
      obtain ⟨e, he⟩ := hstep.mapped v hfirst
      have hpage : IsPage real := ⟨hreal, by omega⟩
      have hframe := PageEntry.frame_mapTo e rw user hpage
      rw [he] at hkeep
      rw [mmuGetPhysicalAddressPdt, mmuIsMapped, hkeep]
      refine ⟨?_, rfl⟩
      rw [Option.elim_some, hframe, pageOffset]
      omega
    · obtain ⟨hnv, hnr⟩ := hnext (by omega)
      have hrest := hfresh.2
      rw [hnv, hnr] at hrest ⊢
      have hv' : virt + 4096 + len * 4096 ≤ word32 := by
        rw [word32]
        omega
      have hr' : real + 4096 + len * 4096 ≤ word32 := by
        rw [word32]
        omega
      obtain ⟨hphys, hmap⟩ := ih hstep.tree (by omega) (by omega) hv' hr' hrest (by omega) (by omega)
      exact ⟨by rw [hphys]; omega, hmap⟩

end Map

/-! ### Unmapping -/

section Unmap
variable {s : Mmu} {pdt virt v len : ℕ}

/-- One step of `mmu_unmap_pages`. -/
structure StepUnmapped (s s' : Mmu) (pdt virt : ℕ) : Prop where
  tree : Tree s'.mem pdt
  unmapped : ∀ v, v / 4096 = virt / 4096 → pageOf s'.mem pdt v = none
  same : ∀ v < word32, v / 4096 ≠ virt / 4096 → pageOf s'.mem pdt v = pageOf s.mem pdt v

theorem unmapPage_step (h : Tree s.mem pdt) (hv : virt < word32) :
    StepUnmapped s (unmapPage s pdt virt) pdt virt := by
  have hi := pdIndex_lt hv
  unfold unmapPage
  by_cases hpres : (entryAt s.mem (pdt + 4 * pdIndex virt)).present = true
  · have hpage := PageEntry.isPage_frame (entryAt s.mem (pdt + 4 * pdIndex virt))
    have hne : pdt ≠ (entryAt s.mem (pdt + 4 * pdIndex virt)).frame :=
      fun he => h.apart ⟨_, hi, hpres, he.symm⟩
    have hdir : ∀ {e : PageEntry}, ∀ k < 1024, entryAt (setEntry s.mem
        ((entryAt s.mem (pdt + 4 * pdIndex virt)).frame + 4 * ptIndex virt) e) (pdt + 4 * k) =
          entryAt s.mem (pdt + 4 * k) :=
      fun k hk => entryAt_congr h.page hk (samePage_setEntry hpage (ptIndex_lt virt) h.page hne)
    rw [if_pos hpres]
    refine ⟨⟨h.page, ?_, fun k hk l hl hpk hpl heq => ?_⟩, fun v hv' => ?_, fun v hv' hv'' => ?_⟩
    · exact fun ht => h.apart ((isTable_congr fun k hk => hdir k hk).mp ht)
    · rw [hdir k hk] at hpk heq
      rw [hdir l hl] at hpl heq
      exact h.distinct k hk l hl hpk hpl heq
    · obtain ⟨hi', hj'⟩ := indices_iff.mpr hv'
      simp only [pageOf, hi', hj', hdir _ hi, entryAt_setEntry_self hpage (ptIndex_lt virt)]
      rw [if_pos hpres]
      rfl
    · simp only [pageOf, hdir _ (pdIndex_lt hv')]
      by_cases hp : (entryAt s.mem (pdt + 4 * pdIndex v)).present = true
      · rw [if_pos hp, if_pos hp]
        by_cases hsame : pdIndex v = pdIndex virt
        · have hj : ptIndex virt ≠ ptIndex v := fun hj => hv'' (indices_iff.mp ⟨hsame, hj.symm⟩)
          rw [hsame, entryAt_setEntry_ne hpage (ptIndex_lt virt) (ptIndex_lt v) hj]
        · have hother : (entryAt s.mem (pdt + 4 * pdIndex v)).frame ≠
              (entryAt s.mem (pdt + 4 * pdIndex virt)).frame :=
            fun he => hsame (h.distinct _ (pdIndex_lt hv') _ hi hp hpres he)
          rw [entryAt_congr (PageEntry.isPage_frame _) (ptIndex_lt v)
            (samePage_setEntry hpage (ptIndex_lt virt) (PageEntry.isPage_frame _) hother)]
      · rw [if_neg hp, if_neg hp]
  · rw [if_neg hpres]
    refine ⟨h, fun v hv' => ?_, fun _ _ _ => rfl⟩
    rw [pageOf, (indices_iff.mpr hv').1]
    exact if_neg hpres

theorem mmuUnmapPages_spec (h : Tree s.mem pdt) (hvirt : virt % 4096 = 0)
    (hv : virt + len * 4096 ≤ word32) :
    (∀ v, virt ≤ v → v < virt + len * 4096 →
      pageOf (mmuUnmapPages s pdt virt len).mem pdt v = none) ∧
    ∀ v < word32, ¬ (virt ≤ v ∧ v < virt + len * 4096) →
      pageOf (mmuUnmapPages s pdt virt len).mem pdt v = pageOf s.mem pdt v := by
  induction len generalizing s virt with
  | zero => exact ⟨fun v h1 h2 => by omega, fun _ _ _ => rfl⟩
  | succ len ih =>
    simp only [word32] at hv
    have hstep := unmapPage_step h (show virt < word32 by simp only [word32]; omega)
    rw [mmuUnmapPages]
    by_cases hlast : len = 0
    · subst hlast
      refine ⟨fun v h1 h2 => hstep.unmapped v (by omega), fun v h1 h2 => hstep.same v h1 (by omega)⟩
    · have hnext : (virt + bitmapPageSize) % word32 = virt + 4096 := by
        simp only [bitmapPageSize, word32]
        omega
      rw [hnext]
      have hv' : virt + 4096 + len * 4096 ≤ word32 := by
        rw [word32]
        omega
      obtain ⟨hnone, hsame⟩ := ih hstep.tree (by omega) hv'
      refine ⟨fun v h1 h2 => ?_, fun v h1 h2 => ?_⟩
      · by_cases hfirst : v < virt + 4096
        · have hlt : v < word32 := by
            rw [word32]
            omega
          rw [hsame v hlt (by omega)]
          exact hstep.unmapped v (by omega)
        · exact hnone v (by omega) (by omega)
      · rw [hsame v h1 (by omega)]
        exact hstep.same v h1 (by omega)

end Unmap

/-- After `mmu_map_pages` the addresses of the range lead to `real` on, page by page, and
after `mmu_unmap_pages` nowhere; both leave the translation of every other address as it
was. -/
theorem map_then_unmap {s : Mmu} {pdt real virt len : ℕ} {rw user : Bool} (htree : Tree s.mem pdt)
    (hreal : real % 4096 = 0) (hvirt : virt % 4096 = 0) (hv : virt + len * 4096 ≤ word32)
    (hr : real + len * 4096 ≤ word32) (hfresh : FreshTables s pdt real virt rw user len) :
    let mapped := mmuMapPages s pdt real virt len rw user
    let unmapped := mmuUnmapPages mapped pdt virt len
    (∀ v, virt ≤ v → v < virt + len * 4096 →
      mmuIsMapped mapped.mem pdt v = true ∧
      mmuGetPhysicalAddressPdt mapped.mem v pdt = real + (v - virt) ∧
      mmuIsMapped unmapped.mem pdt v = false) ∧
    ∀ v < word32, ¬ (virt ≤ v ∧ v < virt + len * 4096) →
      mmuIsMapped mapped.mem pdt v = mmuIsMapped s.mem pdt v ∧
      mmuGetPhysicalAddressPdt mapped.mem v pdt = mmuGetPhysicalAddressPdt s.mem v pdt ∧
      mmuIsMapped unmapped.mem pdt v = mmuIsMapped s.mem pdt v ∧
      mmuGetPhysicalAddressPdt unmapped.mem v pdt = mmuGetPhysicalAddressPdt s.mem v pdt := by
  intro mapped unmapped
  have hkeep : Tree mapped.mem pdt ∧ ∀ v < word32, ¬ (virt ≤ v ∧ v < virt + len * 4096) →
      pageOf mapped.mem pdt v = pageOf s.mem pdt v := by
    rcases Nat.eq_zero_or_pos len with rfl | hpos
    · exact ⟨htree, fun _ _ _ => rfl⟩
    · simp only [word32] at hv
      have hlt : virt < word32 := by
        rw [word32]
        omega
      obtain ⟨htree', hsame⟩ := mmuMapPages_same htree hlt hfresh
      refine ⟨htree', fun v hv' hout => hsame v hv' fun k hk => ?_⟩
      simp only [bitmapPageSize, word32]
      omega
  obtain ⟨hnone, hsame⟩ := mmuUnmapPages_spec hkeep.1 hvirt hv
  refine ⟨fun v h1 h2 => ?_, fun v hlt hout => ?_⟩
  · obtain ⟨hphys, hmapped⟩ := mmuMapPages_mapped htree hreal hvirt hv hr hfresh h1 h2
    refine ⟨hmapped, hphys, ?_⟩
    rw [mmuIsMapped, hnone v h1 h2]
    rfl
  · have hback := (hsame v hlt hout).trans (hkeep.2 v hlt hout)
    simp only [mmuIsMapped, mmuGetPhysicalAddressPdt, unmapped, hback, hkeep.2 v hlt hout, and_self]

/-- An empty directory at `0x420000`. -/
def emptyDirectory : Mmu where
  mem _ := 0
  bitmap := ⟨0x400000, 64, fun i => if i = 0 then 0xFFFFFFFF#32 else 1#32⟩
  kernelEnd := 0xc0400000
  kernelPdt := 0x420000
  currentPdt := 0x420000

theorem emptyDirectory_tree : Tree emptyDirectory.mem 0x420000 := by
  have habsent : ∀ k, (entryAt emptyDirectory.mem (0x420000 + 4 * k)).present = false := fun _ => rfl
  refine ⟨⟨by decide, by decide⟩, ?_, fun k hk l hl hp => ?_⟩
  · rintro ⟨k, hk, hp, -⟩
    rw [habsent] at hp
    cases hp
  · rw [habsent] at hp
    cases hp

/-- Two pages from `0x400000` on, in one new table. -/
theorem map_then_unmap_of_two :
    mmuGetPhysicalAddressPdt
      (mmuMapPages emptyDirectory 0x420000 0x100000 0x400000 2 true true).mem 0x401234 0x420000 =
        0x101234 := by
  have hfresh : FreshTable emptyDirectory 0x420000 0x400000 := by
    refine fun _ => ⟨⟨by decide, by decide⟩, by decide, ?_⟩
    rintro ⟨k, hk, hp, -⟩
    cases (show false = true from hp)
  have hpresent : (entryAt (mapPage emptyDirectory 0x420000 0x100000 0x400000 true true).mem
      (0x420000 + 4 * pdIndex 0x401000)).present = true := by decide +kernel
  have hfreshs : FreshTables emptyDirectory 0x420000 0x100000 0x400000 true true 2 :=
    ⟨hfresh, fun habsent => absurd (hpresent.symm.trans habsent) (by decide), trivial⟩
  exact ((map_then_unmap emptyDirectory_tree (by decide) (by decide) (by decide) (by decide)
    hfreshs).1 0x401234 (by decide) (by decide)).2.1

end DosKernel
