import DosKernel.Paging.Rights

/-! Page tables at `NULL`. When no frame is left, every absent directory entry of a call of
`mmu_map_pages` gets the same table: the page at `NULL`, zeroed again for each. -/

namespace DosKernel

open Lib

theorem bitmapAllocPage_null_iff {b : Bitmap} (hr : b.Region) (h0 : b.start ≠ 0) :
    (bitmapAllocPage b).1 = 0 ↔ ∀ f < b.len * 32, b.bit f = true := by
  rw [bitmapAllocPage_eq]
  have hfirst := (alloc_first_fit b le_rfl).2.1
  constructor
  · intro hnull f hf
    by_contra hbit
    have hnone : bitmapAllocContiguousPages b 1 = (0, b) := by
      rcases bitmapAllocPage_cases hr h0 with he | ⟨hne, -⟩
      · rwa [← bitmapAllocPage_eq]
      · rw [bitmapAllocPage_eq] at hne
        exact absurd hnull hne
    refine hfirst.mp hnone f fun g hg hg' => ?_
    obtain rfl : g = f := by omega
    exact ⟨hf, by simpa using hbit⟩
  · intro hall
    have hnone : bitmapAllocContiguousPages b 1 = (0, b) := hfirst.mpr fun f hfree => by
      obtain ⟨hf, hbit⟩ := hfree f le_rfl (by omega)
      rw [hall f hf] at hbit
      cases hbit
    rw [hnone]

section Steps
variable {s s' : Mmu} {pdt real virt len : ℕ} {rw user : Bool} {out : ℕ → Prop}

/-- The page behind `virt` leaves its entry present, in the same table. -/
theorem Stepped.present_next (h : Stepped s s' pdt real virt rw user) (hv : virt < word32)
    (hj : ptIndex ((virt + bitmapPageSize) % word32) ≠ 0) :
    (entryAt s'.mem (pdt + 4 * pdIndex ((virt + bitmapPageSize) % word32))).present = true := by
  rcases next_indices hv with ⟨-, hi, -⟩ | ⟨-, hj'⟩
  · rw [hi, h.self.1]
    rfl
  · exact absurd hj' hj

/-! ### No page outside is seen -/

/-- Pages `out` behind a table at `NULL` are not mapped, and the steps left do not map
them: such a page is still ahead in the table of `virt`, or no step left writes to `NULL`
through another directory entry. -/
def NullQuiet (m : Memory) (pdt virt len : ℕ) (out : ℕ → Prop) : Prop :=
  ∀ w, out w → (entryAt m (pdt + 4 * pdIndex w)).present = true →
    (entryAt m (pdt + 4 * pdIndex w)).frame = 0 → pageOf m pdt w = none ∧
      (pdIndex w = pdIndex virt ∧ ptIndex virt ≤ ptIndex w ∨
        ∀ k < len, (entryAt m (pdt + 4 * pdIndex (stepAddr virt k))).present = true ∧
          ((entryAt m (pdt + 4 * pdIndex (stepAddr virt k))).frame = 0 →
            pdIndex (stepAddr virt k) = pdIndex w))

/-- A page ahead in the table of `virt` is ahead of the next page too. -/
theorem ahead_next {w : ℕ} (hv : virt < word32) (hi : pdIndex w = pdIndex virt)
    (hle : ptIndex virt ≤ ptIndex w) (hne : w / 4096 ≠ virt / 4096) :
    pdIndex w = pdIndex ((virt + bitmapPageSize) % word32) ∧
      ptIndex ((virt + bitmapPageSize) % word32) ≤ ptIndex w := by
  have hj : ptIndex w ≠ ptIndex virt := fun hj => hne (indices_iff.mp ⟨hi, hj⟩)
  have hlt := ptIndex_lt w
  rcases next_indices hv with ⟨-, hi', hj'⟩ | ⟨hlast, -⟩
  · exact ⟨hi.trans hi'.symm, by omega⟩
  · omega

theorem NullQuiet.step (hq : NullQuiet s.mem pdt virt (len + 1) out) (ht : Tables s pdt)
    (h : Stepped s s' pdt real virt rw user) (hv : virt < word32)
    (hout : ∀ w, out w → w < word32 ∧ w / 4096 ≠ virt / 4096)
    (hin : ptIndex virt ≠ 0 → (entryAt s.mem (pdt + 4 * pdIndex virt)).present = true) :
    NullQuiet s'.mem pdt ((virt + bitmapPageSize) % word32) len out := by
  intro w hw hp h0
  obtain ⟨hlt, hne⟩ := hout w hw
  -- the second possibility goes on, for entries that are present stay as they are
  have hlater : (∀ k < len + 1, (entryAt s.mem (pdt + 4 * pdIndex (stepAddr virt k))).present = true ∧
      ((entryAt s.mem (pdt + 4 * pdIndex (stepAddr virt k))).frame = 0 →
        pdIndex (stepAddr virt k) = pdIndex w)) →
      ∀ k < len, (entryAt s'.mem (pdt + 4 * pdIndex
          (stepAddr ((virt + bitmapPageSize) % word32) k))).present = true ∧
        ((entryAt s'.mem (pdt + 4 * pdIndex
            (stepAddr ((virt + bitmapPageSize) % word32) k))).frame = 0 →
          pdIndex (stepAddr ((virt + bitmapPageSize) % word32) k) = pdIndex w) := by
    intro hall k hk
    rw [stepAddr_succ]
    obtain ⟨hpk, hframe⟩ := hall (k + 1) (by omega)
    obtain ⟨hpk', he⟩ := h.keeps (pdIndex_lt (stepAddr_lt virt (k + 1))) hpk
    exact ⟨hpk', fun h0' => hframe (he.symm.trans h0')⟩
  by_cases hi : pdIndex w = pdIndex virt
  · rw [h.pageOf_beside hi hne]
    by_cases hpres : (entryAt s.mem (pdt + 4 * pdIndex w)).present = true
    · obtain ⟨hnone, hahead | hall⟩ := hq w hw hpres ((h.keeps (pdIndex_lt hlt) hpres).2.symm.trans h0)
      · exact ⟨hnone, .inl (ahead_next hv hi hahead.2 hne)⟩
      · exact ⟨hnone, .inr (hlater hall)⟩
    · have hfirst : ptIndex virt = 0 := by
        by_contra hj
        exact hpres (hi ▸ hin hj)
      exact ⟨by rw [pageOf]; exact if_neg hpres, .inl (ahead_next hv hi (by omega) hne)⟩
  · rw [h.set.other _ (pdIndex_lt hlt) hi] at hp h0
    obtain ⟨hnone, hahead | hall⟩ := hq w hw hp h0
    · exact absurd hahead.1 hi
    · obtain ⟨hpv, hframe⟩ := hall 0 (by omega)
      rw [stepAddr_zero hv] at hpv hframe
      have htable : tableFor s pdt virt ≠ 0 := by
        rw [tableFor_of_present hpv]
        exact fun he => hi (hframe he).symm
      rw [h.pageOf_other ht hlt hi fun _ => .inr htable]
      exact ⟨hnone, .inr (hlater hall)⟩

theorem NullQuiet.run (hq : NullQuiet s.mem pdt virt len out) (h : Tables s pdt) (hv : virt < word32)
    (hout : ∀ w, out w → w < word32 ∧ ∀ k < len, w / 4096 ≠ stepAddr virt k / 4096)
    (hin : ptIndex virt ≠ 0 → (entryAt s.mem (pdt + 4 * pdIndex virt)).present = true) :
    ∀ w, out w → (entryAt (mmuMapPages s pdt real virt len rw user).mem (pdt + 4 * pdIndex w)).present =
        true →
      (entryAt (mmuMapPages s pdt real virt len rw user).mem (pdt + 4 * pdIndex w)).frame = 0 →
      pageOf (mmuMapPages s pdt real virt len rw user).mem pdt w = none := by
  induction len generalizing s real virt with
  | zero => exact fun w hw hp h0 => (hq w hw hp h0).1
  | succ len ih =>
    have hstep := h.step hv real rw user
    have hfirst : ∀ w, out w → w < word32 ∧ w / 4096 ≠ virt / 4096 := by
      intro w hw
      obtain ⟨hlt, hne⟩ := hout w hw
      have h0 := hne 0 (by omega)
      rw [stepAddr_zero hv] at h0
      exact ⟨hlt, h0⟩
    rw [mmuMapPages]
    refine ih (hq.step h hstep hv hfirst hin) hstep.tables (Nat.mod_lt _ (by decide)) ?_
      (hstep.present_next hv)
    intro w hw
    refine ⟨(hout w hw).1, fun k hk => ?_⟩
    rw [stepAddr_succ]
    exact (hout w hw).2 (k + 1) (by omega)

end Steps

/-! ### Going around the directory -/

section Visible
variable {s : Mmu} {pdt virt len : ℕ}

theorem stepAddr_page (virt k : ℕ) : stepAddr virt k / 4096 = (virt / 4096 + k) % 1048576 := by
  simp only [stepAddr, bitmapPageSize, word32]
  omega

end Visible

/-- A step that does not fail leaves a directory without a table at `NULL`. -/
theorem Directory.step {s s' : Mmu} {pdt real virt : ℕ} {rw user : Bool} (hd : Directory s pdt)
    (h : Stepped s s' pdt real virt rw user) (h0 : tableFor s pdt virt ≠ 0) : Directory s' pdt := by
  refine ⟨h.tables, fun k hk hp => ?_⟩
  by_cases hk' : k = pdIndex virt
  · rw [hk', h.self.2]
    exact h0
  · rw [h.set.other k hk hk'] at hp ⊢
    exact hd.allocated k hk hp

end DosKernel
