import DosKernel.Paging.KernelPages
import DosKernel.Paging.Release
import DosKernel.Process.Exec
import DosKernel.Process.FailedFork

/-! The address space that `process_execve` builds. Its directory, its tables and the pages
that it fills are frames that were free, so nothing that is in use is written until the old
address space is given back. -/

namespace DosKernel

open Lib

/-! ### Frames that were free -/

def Bitmap.Spare (b : Bitmap) (p : ℕ) : Prop :=
  ∃ f < b.len * 32, b.bit f = false ∧ p = b.start + f * 4096

/-- From `b` to `b'` frames were only taken. -/
structure Bitmap.Later (b b' : Bitmap) : Prop where
  start_eq : b'.start = b.start
  frames_eq : b'.frames = b.frames
  below : b.Below b'

section Frames
variable {b b' b'' : Bitmap} {p n : ℕ}

namespace Bitmap

theorem Later.refl (b : Bitmap) : b.Later b := ⟨rfl, rfl, .refl b⟩

theorem Later.trans (h : b.Later b') (h' : b'.Later b'') : b.Later b'' :=
  ⟨h'.start_eq.trans h.start_eq, h'.frames_eq.trans h.frames_eq, h.below.trans h'.below⟩

theorem Later.spare (h : b.Later b') (hp : b'.Spare p) : b.Spare p := by
  obtain ⟨f, hf, hbit, rfl⟩ := hp
  refine ⟨f, by rwa [len, ← h.frames_eq], ?_, by rw [h.start_eq]⟩
  cases hold : b.bit f with
  | false => rfl
  | true =>
    rw [h.below f hold] at hbit
    cases hbit

theorem Spare.isPage (hr : b.Region) (hp : b.Spare p) : IsPage p := by
  obtain ⟨f, hf, -, rfl⟩ := hp
  have h1 := hr.aligned
  have h2 := hr.top
  exact ⟨by omega, by omega⟩

theorem Spare.start_le (hp : b.Spare p) : b.start ≤ p := by
  obtain ⟨f, -, -, rfl⟩ := hp
  exact Nat.le_add_right _ _

theorem Spare.not_marked (hp : b.Spare p) : ¬ b.Marked p := by
  obtain ⟨f, -, hbit, rfl⟩ := hp
  rintro ⟨g, -, hset, heq⟩
  obtain rfl : g = f := by omega
  rw [hbit] at hset
  cases hset

theorem Later.region (h : b.Later b') (hr : b.Region) : b'.Region := by
  refine ⟨?_, ?_⟩
  · rw [h.start_eq]
    exact hr.aligned
  · rw [len, h.start_eq, h.frames_eq]
    exact hr.top

theorem Later.marked (h : b.Later b') (hp : b.Marked p) : b'.Marked p := by
  obtain ⟨f, hf, hbit, rfl⟩ := hp
  refine ⟨f, ?_, h.below f hbit, ?_⟩
  · rw [len, h.frames_eq]
    exact hf
  · rw [h.start_eq]

end Bitmap

/-- An allocation takes `n` free frames from the one it returns on, or none. -/
theorem bitmapAllocContiguousPages_takes (hr : b.Region) (hn : 1 ≤ n) :
    b.Later (bitmapAllocContiguousPages b n).2 ∧ ((bitmapAllocContiguousPages b n).1 = 0 ∨
      ∀ k < n, b.Spare ((bitmapAllocContiguousPages b n).1 + k * 4096) ∧
        (bitmapAllocContiguousPages b n).2.Marked ((bitmapAllocContiguousPages b n).1 + k * 4096)) := by
  rcases bitmapAllocContiguousPages_spec b hn with ⟨he, -⟩ | ⟨f, b', he, hfree, hm, -⟩
  · rw [he]
    exact ⟨.refl b, .inl rfl⟩
  · have hin := (hfree f le_rfl (by omega)).1
    have h2 := hr.top
    have haddr : (b.start + f * bitmapPageSize) % word32 = b.start + f * 4096 := by
      rw [bitmapPageSize, word32]
      omega
    rw [he, haddr]
    refine ⟨⟨hm.start_eq, hm.frames_eq, .of_marks hm⟩, .inr fun k hk => ?_⟩
    have hslot := hfree (f + k) (by omega) (by omega)
    refine ⟨⟨f + k, hslot.1, hslot.2, by dsimp only; omega⟩, f + k, ?_, ?_, ?_⟩
    · rw [Bitmap.len, hm.frames_eq]
      exact hslot.1
    · rw [hm.bit_eq, Bool.or_eq_true, decide_eq_true_eq]
      exact .inr ⟨by omega, by omega⟩
    · dsimp only
      rw [hm.start_eq]
      omega

theorem bitmapAllocPage_takes (hr : b.Region) : b.Later (bitmapAllocPage b).2 ∧
    ((bitmapAllocPage b).1 = 0 ∨
      b.Spare (bitmapAllocPage b).1 ∧ (bitmapAllocPage b).2.Marked (bitmapAllocPage b).1) := by
  rw [bitmapAllocPage_eq]
  obtain ⟨hlater, htaken⟩ := bitmapAllocContiguousPages_takes hr (le_refl 1)
  exact ⟨hlater, htaken.imp_right fun h => by simpa using h 0 (by omega)⟩

/-- A page is found as long as a frame is free. -/
theorem bitmapAllocPage_ne (hr : b.Region) (h0 : b.start ≠ 0) (hp : b.Spare p) :
    (bitmapAllocPage b).1 ≠ 0 := by
  obtain ⟨f, hf, hbit, -⟩ := hp
  intro hnull
  rw [(bitmapAllocPage_null_iff hr h0).mp hnull f hf] at hbit
  cases hbit

end Frames

section Mapped
variable {s : Mmu} {pdt real virt len : ℕ} {rw user : Bool}

theorem mapPage_later (hr : s.bitmap.Region) (pdt real virt : ℕ) (rw user : Bool) :
    s.bitmap.Later (mapPage s pdt real virt rw user).bitmap := by
  rw [mapPage_bitmap]
  split_ifs
  · exact .refl _
  · exact (bitmapAllocPage_takes hr).1

theorem mmuMapPages_later (hr : s.bitmap.Region) (pdt real virt len : ℕ) (rw user : Bool) :
    s.bitmap.Later (mmuMapPages s pdt real virt len rw user).bitmap := by
  induction len generalizing s real virt with
  | zero => exact .refl _
  | succ len ih =>
    have hstep := mapPage_later hr pdt real virt rw user
    rw [mmuMapPages]
    exact hstep.trans (ih (hstep.region hr) _ _)

end Mapped

/-! ### A directory under construction -/

/-- Since the memory was `m` and the bitmap `b`, the directory `pd` was made out of free
frames, and only free frames were written. -/
structure NewSpace (b : Bitmap) (m : Memory) (pd : ℕ) (s : Mmu) : Prop extends Directory s pd where
  later : b.Later s.bitmap
  spare : b.Spare pd
  tables : ∀ k < 1024, (entryAt s.mem (pd + 4 * k)).present = true →
    b.Spare (entryAt s.mem (pd + 4 * k)).frame
  same : ∀ {q}, IsPage q → ¬ b.Spare q → SamePage s.mem m q

/-- A frame that was free and is taken for data. -/
structure DataPage (b : Bitmap) (pd : ℕ) (s : Mmu) (q : ℕ) : Prop where
  spare : b.Spare q
  marked : s.bitmap.Marked q
  ne : q ≠ pd
  table : ¬ IsTable s.mem pd 1024 q

/-- From `s` to `s'` the directory `pd` was extended; the pages with data are as they were. -/
structure Extended (b : Bitmap) (m : Memory) (pd : ℕ) (s s' : Mmu) : Prop where
  space : NewSpace b m pd s'
  later : s.bitmap.Later s'.bitmap
  data : ∀ {q}, DataPage b pd s q → DataPage b pd s' q
  kept : ∀ {q}, DataPage b pd s q → SamePage s'.mem s.mem q

/-- The page of `v` lies in the frame `p`. -/
def LeadsTo (m : Memory) (pdt v p : ℕ) : Prop := ∃ e, pageOf m pdt v = some e ∧ e.frame = p

section Space
variable {b : Bitmap} {m : Memory} {s s' s'' : Mmu} {pd real virt len v p q : ℕ} {rw user : Bool}

theorem Extended.refl (h : NewSpace b m pd s) : Extended b m pd s s :=
  ⟨h, .refl _, id, fun _ _ _ _ => rfl⟩

theorem Extended.trans (h : Extended b m pd s s') (h' : Extended b m pd s' s'') :
    Extended b m pd s s'' :=
  ⟨h'.space, h.later.trans h'.later, fun hq => h'.data (h.data hq),
    fun hq => (h'.kept (h.data hq)).trans (h.kept hq)⟩

theorem newSpace_init (hr : s.bitmap.Region) (h0 : s.bitmap.start ≠ 0)
    (hne : (mmuNewPageDirectory s).1 ≠ 0) :
    NewSpace s.bitmap s.mem (mmuNewPageDirectory s).1 (mmuNewPageDirectory s).2 := by
  obtain ⟨hlater, htaken⟩ := bitmapAllocPage_takes hr
  obtain ⟨hspare, hmarked⟩ := htaken.resolve_left hne
  have hz := allocZeroed_spec hr
  have habsent : ∀ k < 1024, ¬ (entryAt (mmuNewPageDirectory s).2.mem
      ((mmuNewPageDirectory s).1 + 4 * k)).present = true := by
    intro k hk hp
    rw [mmuNewPageDirectory, hz.zero k hk] at hp
    cases hp
  refine ⟨⟨⟨hz.region, ?_, hmarked, hne, fun k hk hp => absurd hp (habsent k hk),
    fun k hk _ _ hp => absurd hp (habsent k hk)⟩, fun k hk hp => absurd hp (habsent k hk)⟩, hlater,
    hspare, fun k hk hp => absurd hp (habsent k hk), fun hq hnot => hz.same hq ?_⟩
  · rw [mmuNewPageDirectory, allocZeroed, hlater.start_eq]
    exact h0
  · rintro rfl
    exact hnot hspare

theorem NewSpace.mapPage (h : NewSpace b m pd s) (hv : virt < word32)
    (ht : (entryAt s.mem (pd + 4 * pdIndex virt)).present = true ∨ ∃ p, s.bitmap.Spare p)
    (real : ℕ) (rw user : Bool) : Extended b m pd s (mapPage s pd real virt rw user) := by
  have hstep := h.toTables.step hv real rw user
  have hlater := mapPage_later h.region pd real virt rw user
  have hbitmap := mapPage_bitmap s pd real virt rw user
  have hi := pdIndex_lt hv
  -- the table of the step
  have htable : tableFor s pd virt ≠ 0 ∧ b.Spare (tableFor s pd virt) ∧
      ∀ q, DataPage b pd s q → q ≠ tableFor s pd virt := by
    cases hp : (entryAt s.mem (pd + 4 * pdIndex virt)).present with
    | true =>
      rw [tableFor_of_present hp]
      exact ⟨h.allocated _ hi hp, h.tables _ hi hp, fun q hq he => hq.table ⟨_, hi, hp, he.symm⟩⟩
    | false =>
      obtain ⟨p, hspare⟩ := ht.resolve_left (by rw [hp]; simp)
      have hne := bitmapAllocPage_ne h.region h.start hspare
      have hnew := ((bitmapAllocPage_takes h.region).2.resolve_left hne).1
      rw [tableFor_of_absent hp]
      exact ⟨hne, h.later.spare hnew, fun q hq he => hnew.not_marked (he ▸ hq.marked)⟩
  obtain ⟨hne, hspare, hdata⟩ := htable
  have hpages : ∀ k < 1024, (entryAt (DosKernel.mapPage s pd real virt rw user).mem
      (pd + 4 * k)).present = true →
      (entryAt (DosKernel.mapPage s pd real virt rw user).mem (pd + 4 * k)).frame =
        tableFor s pd virt ∨
      (entryAt s.mem (pd + 4 * k)).present = true ∧
        (entryAt (DosKernel.mapPage s pd real virt rw user).mem (pd + 4 * k)).frame =
          (entryAt s.mem (pd + 4 * k)).frame := by
    intro k hk hp
    by_cases hki : k = pdIndex virt
    · rw [hki]
      exact .inl hstep.self.2
    · rw [hstep.set.other k hk hki] at hp ⊢
      exact .inr ⟨hp, rfl⟩
  have hsame : ∀ {q}, IsPage q → q ≠ pd → q ≠ tableFor s pd virt →
      SamePage (DosKernel.mapPage s pd real virt rw user).mem s.mem q := hstep.set.same
  refine ⟨⟨h.toDirectory.step hstep hne, h.later.trans hlater, h.spare, fun k hk hp => ?_,
    fun hq hnot => ?_⟩, hlater, fun hq => ⟨hq.spare, hlater.marked hq.marked, hq.ne, ?_⟩,
    fun hq => ?_⟩
  · rcases hpages k hk hp with he | ⟨hp', he⟩
    · rw [he]
      exact hspare
    · rw [he]
      exact h.tables k hk hp'
  · refine (hsame hq ?_ ?_).trans (h.same hq hnot)
    · rintro rfl
      exact hnot h.spare
    · rintro rfl
      exact hnot hspare
  · rintro ⟨k, hk, hp, he⟩
    rcases hpages k hk hp with he' | ⟨hp', he'⟩
    · exact hdata _ hq (he.symm.trans he')
    · exact hq.table ⟨k, hk, hp', he'.symm.trans he⟩
  · exact hsame (hq.marked.isPage h.region) hq.ne (hdata _ hq)

theorem NewSpace.mapPages (h : NewSpace b m pd s) (hv : virt < word32)
    (hroom : ∃ p, (mmuMapPages s pd real virt len rw user).bitmap.Spare p) :
    Extended b m pd s (mmuMapPages s pd real virt len rw user) ∧
      FreshTables s pd real virt rw user len := by
  induction len generalizing s real virt with
  | zero => exact ⟨.refl h, trivial⟩
  | succ len ih =>
    rw [mmuMapPages] at hroom ⊢
    have hlater := mapPage_later h.region pd real virt rw user
    have hrest := mmuMapPages_later (hlater.region h.region) pd ((real + bitmapPageSize) % word32)
      ((virt + bitmapPageSize) % word32) len rw user
    obtain ⟨p, hp⟩ := hroom
    have hstep := h.mapPage hv (.inr ⟨p, (hlater.trans hrest).spare hp⟩) real rw user
    obtain ⟨hext, hfresh⟩ := ih hstep.space (Nat.mod_lt _ (by decide)) ⟨p, hp⟩
    exact ⟨hstep.trans hext, h.freshTable virt, hfresh⟩

theorem mmuMapPages_leads {k : ℕ} (h : Tree s.mem pd) (hv : virt < word32) (hlen : len ≤ 1048576)
    (hfresh : FreshTables s pd real virt rw user len) (hk : k < len)
    (hpage : v / 4096 = stepAddr virt k / 4096) :
    LeadsTo (mmuMapPages s pd real virt len rw user).mem pd v (stepAddr real k / 4096 * 4096) := by
  induction len generalizing s real virt k with
  | zero => omega
  | succ len ih =>
    have hstep := mapPage_step h hfresh.1 hv real rw user
    rw [mmuMapPages]
    cases k with
    | succ k =>
      rw [← stepAddr_succ] at hpage ⊢
      exact ih hstep.tree (Nat.mod_lt _ (by decide)) (by omega) hfresh.2 (by omega) hpage
    | zero =>
      rw [stepAddr_zero hv] at hpage
      have hlt : v < word32 := by
        rw [word32] at *
        omega
      obtain ⟨e, he⟩ := hstep.mapped v hpage
      -- no later step comes back to the page
      have hkeep := (mmuMapPages_same hstep.tree (Nat.mod_lt _ (by decide)) hfresh.2).2 v hlt
        fun l hl => by
          have hnext := stepAddr_succ virt l
          rw [stepAddr] at hnext
          rw [hnext, stepAddr_page, hpage]
          rw [word32] at hv
          omega
      refine ⟨_, hkeep.trans he, ?_⟩
      rw [PageEntry.frame, PageEntry.mapTo, stepAddr, BitVec.toNat_ofNat]
      simp only [word32]
      omega

/-- Any other page leads where it led. -/
theorem LeadsTo.mapPages (hleads : LeadsTo s.mem pd v p) (h : Tree s.mem pd) (hv : virt < word32)
    (hfresh : FreshTables s pd real virt rw user len) (hlt : v < word32)
    (hout : ∀ k < len, v / 4096 ≠ stepAddr virt k / 4096) :
    LeadsTo (mmuMapPages s pd real virt len rw user).mem pd v p := by
  obtain ⟨e, he, hframe⟩ := hleads
  exact ⟨e, ((mmuMapPages_same h hv hfresh).2 v hlt hout).trans he, hframe⟩

theorem NewSpace.mapOne (h : NewSpace b m pd s) (hv : virt < word32) (hreal : IsPage real)
    (ht : (entryAt s.mem (pd + 4 * pdIndex virt)).present = true ∨ ∃ p, s.bitmap.Spare p)
    (rw user : Bool) : Extended b m pd s (mmuMapPages s pd real virt 1 rw user) ∧
      (∀ v, v / 4096 = virt / 4096 → LeadsTo (mmuMapPages s pd real virt 1 rw user).mem pd v real) ∧
      ∀ v p, v < word32 → v / 4096 ≠ virt / 4096 → LeadsTo s.mem pd v p →
        LeadsTo (mmuMapPages s pd real virt 1 rw user).mem pd v p := by
  have hstep := mapPage_step h.tree (h.freshTable virt) hv real rw user
  refine ⟨h.mapPage hv ht real rw user, fun v hpage => ?_, ?_⟩
  · obtain ⟨e, he⟩ := hstep.mapped v hpage
    exact ⟨_, he, PageEntry.frame_mapTo e rw user hreal⟩
  · rintro v p hlt hpage ⟨e, he, hframe⟩
    exact ⟨e, (hstep.same v hlt hpage).trans he, hframe⟩

theorem LeadsTo.present (h : LeadsTo m pd v p) : (entryAt m (pd + 4 * pdIndex v)).present = true := by
  obtain ⟨e, he, -⟩ := h
  exact (pageOf_eq_some.mp he).1

theorem NewSpace.take {b' : Bitmap} (h : NewSpace b m pd s) (hlater : s.bitmap.Later b') :
    Extended b m pd s { s with bitmap := b' } := by
  have hstart : b'.start ≠ 0 := by
    rw [hlater.start_eq]
    exact h.start
  refine ⟨⟨⟨⟨hlater.region h.region, hstart, hlater.marked h.dir, h.nonnull, fun k hk hp => ?_,
    h.distinct⟩, h.allocated⟩, h.later.trans hlater, h.spare, h.tables, h.same⟩, hlater,
    fun hq => ⟨hq.spare, hlater.marked hq.marked, hq.ne, hq.table⟩, fun _ _ _ _ => rfl⟩
  exact (h.table k hk hp).imp_right fun hm => ⟨hlater.marked hm.1, hm.2⟩

/-- The frames that an allocation finds are pages for data. -/
theorem NewSpace.alloc {n : ℕ} (h : NewSpace b m pd s) (hn : 1 ≤ n) :
    Extended b m pd s { s with bitmap := (bitmapAllocContiguousPages s.bitmap n).2 } ∧
      ((bitmapAllocContiguousPages s.bitmap n).1 = 0 ∨ ∀ k < n,
        DataPage b pd { s with bitmap := (bitmapAllocContiguousPages s.bitmap n).2 }
          ((bitmapAllocContiguousPages s.bitmap n).1 + k * 4096)) := by
  obtain ⟨hlater, htaken⟩ := bitmapAllocContiguousPages_takes h.region hn
  refine ⟨h.take hlater, htaken.imp_right fun hpages k hk => ?_⟩
  obtain ⟨hspare, hmarked⟩ := hpages k hk
  refine ⟨h.later.spare hspare, hmarked, fun he => hspare.not_marked (he ▸ h.dir), ?_⟩
  rintro ⟨i, hi, hp, he⟩
  rcases h.table i hi hp with h0 | ⟨hm, -⟩
  · exact h.allocated i hi hp h0
  · exact hspare.not_marked (he ▸ hm)

theorem NewSpace.allocPage (h : NewSpace b m pd s) :
    Extended b m pd s { s with bitmap := (bitmapAllocPage s.bitmap).2 } ∧
      ((bitmapAllocPage s.bitmap).1 ≠ 0 →
        DataPage b pd { s with bitmap := (bitmapAllocPage s.bitmap).2 } (bitmapAllocPage s.bitmap).1 ∧
        ∀ {q}, DataPage b pd s q → q ≠ (bitmapAllocPage s.bitmap).1) := by
  have hspare := (bitmapAllocPage_takes h.region).2
  rw [bitmapAllocPage_eq] at hspare ⊢
  obtain ⟨hext, hpages⟩ := h.alloc (le_refl 1)
  refine ⟨hext, fun hne => ⟨by simpa using hpages.resolve_left hne 0 (by omega), fun hq he => ?_⟩⟩
  exact (hspare.resolve_left hne).1.not_marked (he ▸ hq.marked)

structure Written (b : Bitmap) (m : Memory) (pd : ℕ) (s : Mmu) (m' : Memory) : Prop where
  space : NewSpace b m pd { s with mem := m' }
  data : ∀ {q}, DataPage b pd s q → DataPage b pd { s with mem := m' } q
  leads : ∀ {v p}, v < word32 → LeadsTo s.mem pd v p → LeadsTo m' pd v p

theorem NewSpace.write {m' : Memory} (h : NewSpace b m pd s)
    (hsame : ∀ {q}, IsPage q → ¬ DataPage b pd s q → SamePage m' s.mem q) : Written b m pd s m' := by
  have hd := h.dir.isPage h.region
  have hdir : ∀ k < 1024, entryAt m' (pd + 4 * k) = entryAt s.mem (pd + 4 * k) := fun k hk =>
    entryAt_congr hd hk (hsame hd fun hq => hq.ne rfl)
  refine ⟨⟨⟨⟨h.region, h.start, h.dir, h.nonnull, ?_, ?_⟩, ?_⟩, h.later, h.spare, ?_, ?_⟩, ?_, ?_⟩
  · intro k hk hp
    rw [hdir k hk] at hp ⊢
    exact h.table k hk hp
  · intro k hk l hl hpk hpl he h0
    rw [hdir k hk] at hpk he h0
    rw [hdir l hl] at hpl he
    exact h.distinct k hk l hl hpk hpl he h0
  · intro k hk hp
    rw [hdir k hk] at hp ⊢
    exact h.allocated k hk hp
  · intro k hk hp
    rw [hdir k hk] at hp ⊢
    exact h.tables k hk hp
  · exact fun hq hnot => (hsame hq fun hdata => hnot hdata.spare).trans (h.same hq hnot)
  · exact fun hq => ⟨hq.spare, hq.marked, hq.ne, fun ht => hq.table ((isTable_congr hdir).mp ht)⟩
  · rintro v p hv ⟨e, he, hframe⟩
    refine ⟨e, ?_, hframe⟩
    rw [← he]
    refine pageOf_congr hd hv (hsame hd fun hq => hq.ne rfl) fun hp => ?_
    rw [hdir _ (pdIndex_lt hv)] at hp ⊢
    exact hsame (PageEntry.isPage_frame _) fun hq => hq.table ⟨_, pdIndex_lt hv, hp, rfl⟩

end Space

/-! ### The image -/

section Image
variable {b : Bitmap} {m : Memory} {s s' : Mmu} {pd addr ph passes i real virt v p q : ℕ}
  {rw user : Bool}

theorem programHeader_address (s : Mmu) (ph : ℕ) : (programHeader s ph).virtualAddress < word32 :=
  (Memory.load_lt _ _ 4).trans_eq (by decide)

theorem mapSegment_later (hr : s.bitmap.Region) (pd addr ph : ℕ) :
    s.bitmap.Later (mapSegment s pd addr ph).bitmap := by
  rw [mapSegment]
  split_ifs
  · exact mmuMapPages_later hr _ _ _ _ _ _
  · exact .refl _

theorem mapSegments_later (hr : s.bitmap.Region) (pd addr passes i ph : ℕ) :
    s.bitmap.Later (mapSegments pd addr passes i ph s).bitmap := by
  induction passes generalizing s i ph with
  | zero => exact .refl _
  | succ passes ih =>
    rw [mapSegments]
    split_ifs
    · have hstep := mapSegment_later hr pd addr ph
      exact hstep.trans (ih (hstep.region hr) _ _)
    · exact .refl _

theorem NewSpace.mapSegment (h : NewSpace b m pd s)
    (hroom : ∃ p, (mapSegment s pd addr ph).bitmap.Spare p) :
    Extended b m pd s (mapSegment s pd addr ph) := by
  rw [DosKernel.mapSegment] at hroom ⊢
  split_ifs at hroom ⊢
  · exact (h.mapPages (programHeader_address s ph) hroom).1
  · exact .refl h

theorem NewSpace.mapSegments (h : NewSpace b m pd s)
    (hroom : ∃ p, (mapSegments pd addr passes i ph s).bitmap.Spare p) :
    Extended b m pd s (mapSegments pd addr passes i ph s) := by
  induction passes generalizing s i ph with
  | zero => exact .refl h
  | succ passes ih =>
    rw [DosKernel.mapSegments] at hroom ⊢
    split_ifs at hroom ⊢
    · obtain ⟨p, hp⟩ := hroom
      have hrest := mapSegments_later (mapSegment_later h.region pd addr ph |>.region h.region) pd addr
        passes (i + 1) ((ph + 32) % word32)
      have hstep := h.mapSegment ⟨p, hrest.spare hp⟩
      exact hstep.trans (ih hstep.space ⟨p, hp⟩)
    · exact .refl h

/-- The page at the top of the stack; without frames for a stack it is the page at `0x1000`. -/
structure StackPage (b : Bitmap) (pd : ℕ) (s : Mmu) (stack : ℕ) : Prop where
  leads : LeadsTo s.mem pd 0xbffff000 (stack + 4096)
  data : stack = 0 ∨ DataPage b pd s (stack + 4096)

theorem StackPage.isPage {stack : ℕ} (h : StackPage b pd s stack) : IsPage (stack + 4096) := by
  obtain ⟨e, -, he⟩ := h.leads
  rw [← he]
  exact e.isPage_frame

theorem NewSpace.mapStack {stack : ℕ} (h : NewSpace b m pd s) (hstack : stack % 4096 = 0)
    (htop : stack + 4096 < word32) (hdata : stack = 0 ∨ DataPage b pd s (stack + 4096))
    (hroom : ∃ p, (mmuMapPages s pd stack 0xbfffe000 2 true true).bitmap.Spare p) :
    Extended b m pd s (mmuMapPages s pd stack 0xbfffe000 2 true true) ∧
      StackPage b pd (mmuMapPages s pd stack 0xbfffe000 2 true true) stack := by
  obtain ⟨hext, hfresh⟩ := h.mapPages (by decide) hroom
  have hleads := mmuMapPages_leads (v := 0xbffff000) (k := 1) h.tree (by decide) (by decide) hfresh
    (by decide) (by decide)
  have hframe : stepAddr stack 1 / 4096 * 4096 = stack + 4096 := by
    rw [stepAddr, bitmapPageSize, Nat.one_mul, Nat.mod_eq_of_lt htop]
    omega
  rw [hframe] at hleads
  exact ⟨hext, hleads, hdata.imp_right hext.data⟩

/-- The end of `execImage`: the stack and the pages for the heap of the program. -/
def mapStackAndHeap (s : Mmu) (pd stack : ℕ) : Mmu :=
  let s := mmuMapPages s pd stack 0xbfffe000 2 true true
  let heap := bitmapAllocContiguousPages s.bitmap 1024
  mmuMapPages { s with bitmap := heap.2 } pd heap.1 0xc00000 1024 true true

theorem mapStackAndHeap_later (hr : s.bitmap.Region) (pd stack : ℕ) :
    (mmuMapPages s pd stack 0xbfffe000 2 true true).bitmap.Later
        (mapStackAndHeap s pd stack).bitmap ∧
      s.bitmap.Later (mapStackAndHeap s pd stack).bitmap := by
  have hstack := mmuMapPages_later hr pd stack 0xbfffe000 2 true true
  have hheap := (bitmapAllocContiguousPages_takes (hstack.region hr) (show 1 ≤ 1024 by decide)).1
  have hmap := mmuMapPages_later (s := { mmuMapPages s pd stack 0xbfffe000 2 true true with
    bitmap := (bitmapAllocContiguousPages
      (mmuMapPages s pd stack 0xbfffe000 2 true true).bitmap 1024).2 })
    (hheap.region (hstack.region hr)) pd
    (bitmapAllocContiguousPages (mmuMapPages s pd stack 0xbfffe000 2 true true).bitmap 1024).1
    0xc00000 1024 true true
  exact ⟨hheap.trans hmap, hstack.trans (hheap.trans hmap)⟩

theorem NewSpace.mapStackAndHeap {stack : ℕ} (h : NewSpace b m pd s) (hstack : stack % 4096 = 0)
    (htop : stack + 4096 < word32) (hdata : stack = 0 ∨ DataPage b pd s (stack + 4096))
    (hroom : ∃ p, (mapStackAndHeap s pd stack).bitmap.Spare p) :
    Extended b m pd s (mapStackAndHeap s pd stack) ∧
      StackPage b pd (mapStackAndHeap s pd stack) stack := by
  obtain ⟨p, hp⟩ := hroom
  have hlater := (mapStackAndHeap_later h.region pd stack).1
  obtain ⟨hext, hpage⟩ := h.mapStack hstack htop hdata ⟨p, hlater.spare hp⟩
  have htake := (hext.space.alloc (show 1 ≤ 1024 by decide)).1
  obtain ⟨hmap, hfresh⟩ := htake.space.mapPages (show 0xc00000 < word32 by decide) ⟨p, hp⟩
  refine ⟨hext.trans (htake.trans hmap), ?_, hpage.data.imp_right fun hq => hmap.data (htake.data hq)⟩
  -- the pages of the heap lie elsewhere
  refine LeadsTo.mapPages hpage.leads htake.space.tree (by decide) hfresh (by decide) fun k hk => ?_
  rw [stepAddr_page]
  omega

/-- The state of `execImage` before the loop over the program headers. -/
def imageStart (s : Mmu) : Mmu :=
  { (mmuNewPageDirectory s).2 with
    bitmap := (bitmapAllocContiguousPages (mmuNewPageDirectory s).2.bitmap 2).2 }

def imageStack (s : Mmu) : ℕ := (bitmapAllocContiguousPages (mmuNewPageDirectory s).2.bitmap 2).1

theorem execImage_eq (s : Mmu) (addr : ℕ) : execImage s addr =
    ((mmuNewPageDirectory s).1, imageStack s, mapStackAndHeap (mapSegments (mmuNewPageDirectory s).1
      addr 65536 1 ((addr + (imageStart s).view.load (addr + 28) 4) % word32) (imageStart s))
      (mmuNewPageDirectory s).1 (imageStack s)) := by
  simp only [execImage, mapStackAndHeap, imageStart, imageStack]

theorem imageStack_page (hr : s.bitmap.Region) :
    imageStack s % 4096 = 0 ∧ imageStack s + 4096 < word32 := by
  have hpd : s.bitmap.Later (mmuNewPageDirectory s).2.bitmap := (bitmapAllocPage_takes hr).1
  rw [imageStack]
  rcases (bitmapAllocContiguousPages_takes (hpd.region hr) (show 1 ≤ 2 by decide)).2 with h0 | hpages
  · rw [h0, word32]
    omega
  · have h0 := (hpages 0 (by decide)).1.isPage (hpd.region hr)
    have h1 := (hpages 1 (by decide)).1.isPage (hpd.region hr)
    rw [Nat.zero_mul, Nat.add_zero] at h0
    rw [Nat.one_mul] at h1
    exact ⟨h0.aligned, h1.top⟩

/-- What is there before the loop, if a frame is still free. -/
theorem imageStart_spec (hr : s.bitmap.Region) (h0 : s.bitmap.start ≠ 0) :
    (imageStart s).bitmap.Region ∧ ((imageStart s).bitmap.Spare p →
      NewSpace s.bitmap s.mem (mmuNewPageDirectory s).1 (imageStart s) ∧ (imageStack s = 0 ∨
        DataPage s.bitmap (mmuNewPageDirectory s).1 (imageStart s) (imageStack s + 4096))) := by
  have hpd : s.bitmap.Later (mmuNewPageDirectory s).2.bitmap := (bitmapAllocPage_takes hr).1
  have hst : (mmuNewPageDirectory s).2.bitmap.Later (imageStart s).bitmap :=
    (bitmapAllocContiguousPages_takes (hpd.region hr) (show 1 ≤ 2 by decide)).1
  refine ⟨hst.region (hpd.region hr), fun hp => ?_⟩
  have hnew := newSpace_init hr h0 (bitmapAllocPage_ne hr h0 (hpd.spare (hst.spare hp)))
  obtain ⟨hext, hframes⟩ := hnew.alloc (show 1 ≤ 2 by decide)
  refine ⟨hext.space, hframes.imp_right fun h => ?_⟩
  have h1 := h 1 (by decide)
  rwa [Nat.one_mul] at h1

/-- What `execImage` builds if frames are left in the end. -/
theorem execImage_spec (hr : s.bitmap.Region) (h0 : s.bitmap.start ≠ 0)
    (hroom : ∃ p, (execImage s addr).2.2.bitmap.Spare p) :
    NewSpace s.bitmap s.mem (execImage s addr).1 (execImage s addr).2.2 ∧
      StackPage s.bitmap (execImage s addr).1 (execImage s addr).2.2 (execImage s addr).2.1 := by
  obtain ⟨p, hp⟩ := hroom
  obtain ⟨hstack, htop⟩ := imageStack_page hr
  obtain ⟨hr₁, hstart⟩ := imageStart_spec (p := p) hr h0
  rw [execImage_eq] at hp ⊢
  dsimp only at hp ⊢
  generalize (addr + (imageStart s).view.load (addr + 28) 4) % word32 = ph at hp ⊢
  -- a frame that is free in the end was free all the time
  have hsegments := mapSegments_later hr₁ (mmuNewPageDirectory s).1 addr 65536 1 ph
  have hspare := (mapStackAndHeap_later (hsegments.region hr₁) (mmuNewPageDirectory s).1
    (imageStack s)).2.spare hp
  obtain ⟨hspace, hdata⟩ := hstart (hsegments.spare hspare)
  have hext := hspace.mapSegments ⟨p, hspare⟩
  obtain ⟨hend, hpage⟩ := hext.space.mapStackAndHeap hstack htop (hdata.imp_right hext.data) ⟨p, hp⟩
  exact ⟨hend.space, hpage⟩

end Image

/-! ### The pages of a vector -/

/-- The two frames for a vector and the state of `execVector` before it copies. -/
def vectorPages (s : Mmu) (pd virt : ℕ) : ℕ × ℕ × Mmu :=
  let page := bitmapAllocPage s.bitmap
  let strs := bitmapAllocPage page.2
  let s := mmuMapPages { s with bitmap := strs.2 } pd page.1 virt 1 true true
  let s := mmuMapPages s pd strs.1 (virt + bitmapPageSize) 1 true true
  (page.1, strs.1, { s with mem := (s.mem.fill page.1 4096 0).fill strs.1 4096 0 })

/-- Two empty pages for a vector and its strings, at `virt` and behind it. -/
structure VectorSpace (b : Bitmap) (m : Memory) (pd virt : ℕ) (s : Mmu) (page strs : ℕ)
    (s' : Mmu) : Prop where
  space : NewSpace b m pd s'
  pageData : DataPage b pd s' page
  strsData : DataPage b pd s' strs
  ne : page ≠ strs
  pageLeads : LeadsTo s'.mem pd virt page
  strsLeads : LeadsTo s'.mem pd (virt + 4096) strs
  pageZero : ∀ x < 4096, s'.mem (page + x) = 0
  strsZero : ∀ x < 4096, s'.mem (strs + x) = 0
  data : ∀ {q}, DataPage b pd s q → DataPage b pd s' q
  kept : ∀ {q}, DataPage b pd s q → q ≠ page → q ≠ strs → SamePage s'.mem s.mem q
  leads : ∀ {v p}, v < word32 → v / 4096 ≠ virt / 4096 → v / 4096 ≠ (virt + 4096) / 4096 →
    LeadsTo s.mem pd v p → LeadsTo s'.mem pd v p

section Vectors
variable {b : Bitmap} {m : Memory} {s : Mmu} {pd virt page strs : ℕ}

theorem fill_zero {p x : ℕ} (hp : IsPage p) (hx : x < 4096) : m.fill p 4096 0 (p + x) = 0 := by
  have h1 := hp.aligned
  have h2 := hp.top
  rw [Memory.fill, Memory.write_of_mem (by rw [space]; omega) (by omega) (by omega)]

/-- The two calls and the two `memset`s. -/
theorem NewSpace.mapVector (h : NewSpace b m pd s) (hpage : DataPage b pd s page)
    (hstrs : DataPage b pd s strs) (hne : page ≠ strs) (hv : virt + 8192 ≤ word32)
    (hindex : pdIndex (virt + 4096) = pdIndex virt)
    (ht : (entryAt s.mem (pd + 4 * pdIndex virt)).present = true ∨ ∃ p, s.bitmap.Spare p) :
    VectorSpace b m pd virt s page strs
      { mmuMapPages (mmuMapPages s pd page virt 1 true true) pd strs (virt + 4096) 1 true true with
        mem := ((mmuMapPages (mmuMapPages s pd page virt 1 true true) pd strs (virt + 4096) 1 true
          true).mem.fill page 4096 0).fill strs 4096 0 } := by
  have hpageIs := hpage.marked.isPage h.region
  have hstrsIs := hstrs.marked.isPage h.region
  obtain ⟨hext₁, hleads₁, hother₁⟩ := h.mapOne (show virt < word32 by rw [word32] at *; omega)
    hpageIs ht true true
  have hpresent := (hleads₁ virt rfl).present
  rw [← hindex] at hpresent
  obtain ⟨hext₂, hleads₂, hother₂⟩ := hext₁.space.mapOne
    (show virt + 4096 < word32 by rw [word32] at *; omega) hstrsIs (.inl hpresent) true true
  have hext := hext₁.trans hext₂
  generalize mmuMapPages (mmuMapPages s pd page virt 1 true true) pd strs (virt + 4096) 1 true true =
    s' at *
  have hwritten : Written b m pd s' ((s'.mem.fill page 4096 0).fill strs 4096 0) := by
    refine hext.space.write fun {q} hq hnot => ?_
    have hqp : q ≠ page := fun he => hnot (he ▸ hext.data hpage)
    have hqs : q ≠ strs := fun he => hnot (he ▸ hext.data hstrs)
    exact (samePage_fill hstrsIs hq hqs 0).trans (samePage_fill hpageIs hq hqp 0)
  refine ⟨hwritten.space, hwritten.data (hext.data hpage), hwritten.data (hext.data hstrs), hne,
    ?_, ?_, fun x hx => ?_, fun x hx => fill_zero hstrsIs hx, fun hq => hwritten.data (hext.data hq),
    fun hq hqp hqs => ?_, fun hv hout hout' hleads => ?_⟩
  · refine hwritten.leads (by rw [word32] at *; omega) (hother₂ _ _ ?_ (by omega) (hleads₁ virt rfl))
    rw [word32] at *
    omega
  · exact hwritten.leads (by rw [word32] at *; omega) (hleads₂ _ rfl)
  · exact (samePage_fill hstrsIs hpageIs hne 0 (page + x) (by omega) (by omega)).trans
      (fill_zero hpageIs hx)
  · have hq' := hq.marked.isPage h.region
    exact ((samePage_fill hstrsIs hq' hqs 0).trans (samePage_fill hpageIs hq' hqp 0)).trans
      (hext.kept hq)
  · exact hwritten.leads hv (hother₂ _ _ hv hout' (hother₁ _ _ hv hout hleads))

/-- Both frames are found if the second one is, and the table is there or a frame is left
for it. -/
theorem vectorPages_spec (h : NewSpace b m pd s) (hv : virt + 8192 ≤ word32)
    (hindex : pdIndex (virt + 4096) = pdIndex virt)
    (hne : (bitmapAllocPage (bitmapAllocPage s.bitmap).2).1 ≠ 0)
    (ht : (entryAt s.mem (pd + 4 * pdIndex virt)).present = true ∨
      ∃ p, (bitmapAllocPage (bitmapAllocPage s.bitmap).2).2.Spare p) :
    VectorSpace b m pd virt s (vectorPages s pd virt).1 (vectorPages s pd virt).2.1
        (vectorPages s pd virt).2.2 ∧
      ∀ {q}, DataPage b pd s q → q ≠ (vectorPages s pd virt).1 ∧ q ≠ (vectorPages s pd virt).2.1 := by
  -- the first frame is found if the second one is
  have hr₁ := (bitmapAllocPage_takes h.region).1.region h.region
  obtain ⟨hstrs, -⟩ := (bitmapAllocPage_takes hr₁).2.resolve_left hne
  have hfirst := bitmapAllocPage_ne h.region h.start ((bitmapAllocPage_takes h.region).1.spare hstrs)
  obtain ⟨htake₁, hpage₁⟩ := h.allocPage
  obtain ⟨hdata₁, hother₁⟩ := hpage₁ hfirst
  obtain ⟨htake₂, hpage₂⟩ := htake₁.space.allocPage
  obtain ⟨hdata₂, hother₂⟩ := hpage₂ hne
  have hvector := htake₂.space.mapVector (htake₂.data hdata₁) hdata₂ (hother₂ hdata₁) hv hindex ht
  refine ⟨⟨hvector.space, hvector.pageData, hvector.strsData, hvector.ne, hvector.pageLeads,
    hvector.strsLeads, hvector.pageZero, hvector.strsZero,
    fun hq => hvector.data (htake₂.data (htake₁.data hq)),
    fun hq hqp hqs => hvector.kept (htake₂.data (htake₁.data hq)) hqp hqs, hvector.leads⟩,
    fun hq => ⟨hother₁ hq, hother₂ (htake₁.data hq)⟩⟩

end Vectors

/-! ### An address space in use -/

/-- Walks of `pdt` come to no free frame. -/
structure Occupied (b : Bitmap) (m : Memory) (pdt : ℕ) : Prop where
  page : IsPage pdt
  dir : ¬ b.Spare pdt
  self : ¬ IsTable m pdt 768 pdt
  table : ∀ {t}, IsTable m pdt 1024 t → ¬ b.Spare t
  mapped : ∀ {q}, IsMappedPage m pdt 1024 q → ¬ b.Spare q

/-- Outside of the free frames of `b` the memories are the same. -/
def SameUsed (b : Bitmap) (m' m : Memory) : Prop := ∀ {q}, IsPage q → ¬ b.Spare q → SamePage m' m q

section Used
variable {b : Bitmap} {m m' : Memory} {s : Mmu} {pdt v n t : ℕ} {e : PageEntry}

theorem Occupied.pageOf_eq (h : Occupied b m pdt) (hsame : SameUsed b m' m) (hv : v < word32) :
    pageOf m' pdt v = pageOf m pdt v := by
  refine (pageOf_congr h.page hv (hsame h.page h.dir).symm fun hp => ?_).symm
  exact (hsame (PageEntry.isPage_frame _) (h.table ⟨_, pdIndex_lt hv, hp, rfl⟩)).symm

theorem Occupied.frame (h : Occupied b m pdt) (hv : v < word32) (he : pageOf m pdt v = some e) :
    ¬ b.Spare e.frame := by
  obtain ⟨hp, hpe, hentry⟩ := pageOf_eq_some.mp he
  refine h.mapped ⟨_, pdIndex_lt hv, hp, _, ptIndex_lt v, ?_, ?_⟩
  · rw [hentry, hpe]
  · rw [hentry]

theorem Occupied.isTable (h : Occupied b m pdt) (hsame : SameUsed b m' m) (ht : IsTable m' pdt 768 t) :
    IsTable m pdt 768 t := by
  refine (isTable_congr fun k hk => ?_).mp ht
  exact entryAt_congr h.page (by omega) (hsame h.page h.dir)

theorem pageOffset_lt (v : ℕ) : pageOffset v < 4096 := Nat.mod_lt _ (by decide)

theorem Occupied.read_eq (h : Occupied b m pdt) (hsame : SameUsed b m' m) (hv : v < word32)
    (hin : pageOffset v + n ≤ 4096) : mmuRead n m' pdt v = mmuRead n m pdt v := by
  rw [mmuRead, mmuRead, h.pageOf_eq hsame hv]
  cases he : pageOf m pdt v with
  | none => rfl
  | some e =>
    have hpage := e.isPage_frame
    have h1 := hpage.aligned
    have h2 := hpage.top
    refine Memory.load_congr (by rw [space]; omega) fun x hx hx' => ?_
    exact hsame hpage (h.frame hv he) x (by omega) (by omega)

/-- `mmu_free_pages` writes to page tables only. -/
theorem mmuFreePages_same (hd : IsPage pdt) (hself : ¬ IsTable s.mem pdt 768 pdt)
    (hn : n ≤ 768 * 1024) {q : ℕ} (hq : IsPage q) (hnot : ¬ IsTable s.mem pdt 768 q) :
    SamePage (mmuFreePages s pdt 0 n).mem s.mem q := by
  refine forRange_invariant (I := fun _ (s' : Mmu) => ∀ q, IsPage q → ¬ IsTable s.mem pdt 768 q →
    SamePage s'.mem s.mem q) (i := 0) (n := n) ?_ (fun _ _ _ _ _ _ => rfl) q hq hnot
  · intro i s' _ hi hI q hq hnot
    rw [ReleaseInv.freePage_eq (by omega)]
    cases he : pageOf s'.mem pdt (i * 4096) with
    | none => exact hI q hq hnot
    | some e =>
      have hindex : pdIndex (i * 4096) < 768 := by
        rw [pdIndex]
        omega
      rw [Option.elim_some, unmapPage]
      dsimp only
      split_ifs with hp
      · have hdir := entryAt_congr hd (show pdIndex (i * 4096) < 1024 by omega) (hI pdt hd hself)
        refine (samePage_setEntry (PageEntry.isPage_frame _) (ptIndex_lt _) hq ?_).trans (hI q hq hnot)
        rintro rfl
        rw [hdir] at hp hnot
        exact hnot ⟨_, hindex, hp, rfl⟩
      · exact hI q hq hnot

end Used

/-! ### Taking the place of the old one -/

def stackWords (m : Memory) (stack argc : ℕ) : Memory :=
  ((m.store (stack + 4 * 2047) 4 0xb02000).store (stack + 4 * 2046) 4 0xb00000).store
    (stack + 4 * 2045) 4 argc

section Replace
variable {b : Bitmap} {m : Memory} {k : Kernel} {p addr pd stack argc v q : ℕ}

theorem stackWords_same (hp : IsPage (stack + 4096)) (hq : IsPage q) (hne : q ≠ stack + 4096) :
    SamePage (stackWords m stack argc) m q := by
  have hstore : ∀ (m : Memory) (x i : ℕ), 1024 ≤ i → i < 2048 →
      SamePage (m.store (stack + 4 * i) 4 x) m q := fun m x i hi hi' =>
    samePage_write hp (by omega) (by omega) hq hne
  exact ((hstore _ _ 2045 (by decide) (by decide)).trans
    (hstore _ _ 2046 (by decide) (by decide))).trans (hstore _ _ 2047 (by decide) (by decide))

theorem stackWords_load (hp : IsPage (stack + 4096)) (hargc : argc < word32) :
    (stackWords m stack argc).load (stack + 4096 + 4084) 4 = argc ∧
    (stackWords m stack argc).load (stack + 4096 + 4088) 4 = 0xb00000 ∧
    (stackWords m stack argc).load (stack + 4096 + 4092) 4 = 0xb02000 := by
  have htop := hp.top
  have haligned := hp.aligned
  have hself : ∀ (m : Memory) (x i : ℕ), i < 2048 → x < word32 →
      (m.store (stack + 4 * i) 4 x).load (stack + 4 * i) 4 = x := fun m x i hi hx =>
    Memory.load_store (by rw [space]; omega) (hx.trans_eq (by decide))
  have hother : ∀ (m : Memory) (x i j : ℕ), i < 2048 → j < 2048 → i ≠ j →
      (m.store (stack + 4 * i) 4 x).load (stack + 4 * j) 4 = m.load (stack + 4 * j) 4 :=
    fun m x i j hi hj hne => Memory.load_congr (by rw [space]; omega) fun y hy hy' =>
      Memory.write_of_not_mem (by rw [space]; omega) (by omega)
  refine ⟨hself _ argc 2045 (by decide) hargc, ?_, ?_⟩
  · rw [stackWords, show stack + 4096 + 4088 = stack + 4 * 2046 by omega,
      hother _ _ 2045 2046 (by decide) (by decide) (by decide)]
    exact hself _ _ 2046 (by decide) (by decide)
  · rw [stackWords, show stack + 4096 + 4092 = stack + 4 * 2047 by omega,
      hother _ _ 2045 2047 (by decide) (by decide) (by decide),
      hother _ _ 2046 2047 (by decide) (by decide) (by decide)]
    exact hself _ _ 2047 (by decide) (by decide)

/-- `execReplace` once the old address space was given back. -/
def replaceWith (k : Kernel) (s : Mmu) (p addr pd stack argc : ℕ) : Kernel :=
  { k.setProc p fun q => { q with
      r := { q.r with eip := s.view.load (addr + 24) 4, ebp := 0xbffffffe, useresp := 0xbffffff0 }
      pdt := pd } with
    mmu := { s with mem := stackWords s.mem stack argc } }

theorem execReplace_eq (k : Kernel) (p addr pd stack argc : ℕ) :
    execReplace k p addr pd stack argc = replaceWith k
      (releaseAddressSpace (mmuCopyKernelPages k.mmu pd) (k.procs p).pdt) p addr pd stack argc := by
  rw [execReplace, replaceWith, releaseAddressSpace, stackWords]

theorem replaceWith_proc (k : Kernel) (s : Mmu) (p addr pd stack argc : ℕ) :
    ((replaceWith k s p addr pd stack argc).procs p).pdt = pd ∧
      ((replaceWith k s p addr pd stack argc).procs p).r.useresp = 0xbffffff0 := by
  rw [replaceWith]
  dsimp only
  rw [Kernel.setProc_self]
  exact ⟨rfl, rfl⟩

theorem samePage_of_bitmap {s : Mmu} (h : SamePage s.mem m q) (b : Bitmap) :
    SamePage { s with bitmap := b }.mem m q := h

theorem releaseAddressSpace_same {s : Mmu} {pdt : ℕ} (hd : IsPage pdt)
    (hself : ¬ IsTable s.mem pdt 768 pdt) (hq : IsPage q) (hnot : ¬ IsTable s.mem pdt 768 q) :
    SamePage (releaseAddressSpace s pdt).mem s.mem q :=
  samePage_of_bitmap (mmuFreePages_same hd hself le_rfl hq hnot) _

/-- The end of `execve`: the process has the new directory, and the pages that are neither
tables of the old one nor the new directory nor the top of the stack are as they were. -/
structure Replaced (m : Memory) (k : Kernel) (p pd stack argc : ℕ) (k' : Kernel) : Prop where
  pdt : (k'.procs p).pdt = pd
  esp : (k'.procs p).r.useresp = 0xbffffff0
  same : ∀ {q}, IsPage q → q ≠ pd → ¬ IsTable m (k.procs p).pdt 768 q → q ≠ stack + 4096 →
    SamePage k'.mmu.mem k.mmu.mem q
  pages : ∀ v < 0xc0000000, pageOf k'.mmu.mem pd v = pageOf k.mmu.mem pd v
  argc : k'.mmu.mem.load (stack + 4096 + 4084) 4 = argc
  argv : k'.mmu.mem.load (stack + 4096 + 4088) 4 = 0xb00000
  envp : k'.mmu.mem.load (stack + 4096 + 4092) 4 = 0xb02000

theorem execReplace_spec (hs : NewSpace b m pd k.mmu) (hold : Occupied b m (k.procs p).pdt)
    (hstack : StackPage b pd k.mmu stack) (h0 : 0x2000 ≤ b.start) (hargc : argc < word32)
    (addr : ℕ) : Replaced m k p pd stack argc (execReplace k p addr pd stack argc) := by
  have hpd := hs.dir.isPage hs.region
  have hpage := hstack.isPage
  have hcopied := mmuCopyKernelPages_spec k.mmu hpd
  rw [execReplace_eq]
  generalize mmuCopyKernelPages k.mmu pd = s₁ at hcopied ⊢
  -- the frame at the top of the stack is neither the directory nor a table
  have htop : stack + 4096 ≠ pd ∧ ¬ IsTable k.mmu.mem pd 1024 (stack + 4096) := by
    rcases hstack.data with rfl | hdata
    · have hlow : ∀ {q}, b.Spare q → 0 + 4096 ≠ q := fun hq => by
        have := hq.start_le
        omega
      refine ⟨hlow hs.spare, ?_⟩
      rintro ⟨k, hk, hp, he⟩
      exact hlow (hs.tables k hk hp) he.symm
    · exact ⟨hdata.ne, hdata.table⟩
  have hcopy : ∀ {q}, IsPage q → q ≠ pd → SamePage s₁.mem k.mmu.mem q := by
    intro q hq hne x hx hx'
    refine hcopied.other x fun hin => ?_
    have h1 := hq.aligned
    have h2 := hpd.aligned
    omega
  have hused : SameUsed b s₁.mem m := fun hq hnot =>
    (hcopy hq fun he => hnot (he ▸ hs.spare)).trans (hs.same hq hnot)
  have hfree : ∀ {q}, IsPage q → ¬ IsTable m (k.procs p).pdt 768 q →
      SamePage (releaseAddressSpace s₁ (k.procs p).pdt).mem
        s₁.mem q := fun hq hnot =>
    releaseAddressSpace_same hold.page (fun ht => hold.self (hold.isTable hused ht)) hq
      fun ht => hnot (hold.isTable hused ht)
  have hnew : ∀ {q}, b.Spare q → ¬ IsTable m (k.procs p).pdt 768 q := by
    rintro q hq ⟨i, hi, hp, he⟩
    exact hold.table ⟨i, by omega, hp, he⟩ hq
  generalize releaseAddressSpace s₁ (k.procs p).pdt = s at hfree ⊢
  have hsame : ∀ {q}, IsPage q → q ≠ pd → ¬ IsTable m (k.procs p).pdt 768 q → q ≠ stack + 4096 →
      SamePage (replaceWith k s p addr pd stack argc).mmu.mem k.mmu.mem q := fun hq hne hnot hneq =>
    ((stackWords_same hpage hq hneq).trans (hfree hq hnot)).trans (hcopy hq hne)
  have hpages : ∀ v < 0xc0000000,
      pageOf (replaceWith k s p addr pd stack argc).mmu.mem pd v = pageOf k.mmu.mem pd v := by
    intro v hv
    have hi : pdIndex v < 768 := by
      rw [pdIndex]
      omega
    have hlt : v < word32 := by
      rw [word32]
      omega
    -- the entries of the kernel half are behind those of the user half
    have hentry : entryAt (replaceWith k s p addr pd stack argc).mmu.mem (pd + 4 * pdIndex v) =
        entryAt k.mmu.mem (pd + 4 * pdIndex v) := by
      have h1 : SamePage (replaceWith k s p addr pd stack argc).mmu.mem s₁.mem pd :=
        (stackWords_same hpage hpd htop.1.symm).trans (hfree hpd (hnew hs.spare))
      have h2 := hpd.top
      have h3 := hpd.aligned
      rw [entryAt_congr hpd (by omega) h1, entryAt, entryAt]
      congr 1
      exact Memory.load_congr (by rw [space]; omega) fun x hx hx' => hcopied.other x (by omega)
    simp only [pageOf, hentry]
    by_cases hp : (entryAt k.mmu.mem (pd + 4 * pdIndex v)).present = true
    · have htable : IsTable k.mmu.mem pd 1024 (entryAt k.mmu.mem (pd + 4 * pdIndex v)).frame :=
        ⟨_, pdIndex_lt hlt, hp, rfl⟩
      have hspare := hs.tables _ (pdIndex_lt hlt) hp
      have hframe := PageEntry.isPage_frame (entryAt k.mmu.mem (pd + 4 * pdIndex v))
      generalize (entryAt k.mmu.mem (pd + 4 * pdIndex v)).frame = t at *
      have hkept : SamePage (replaceWith k s p addr pd stack argc).mmu.mem k.mmu.mem t := by
        refine hsame hframe ?_ (hnew hspare) ?_
        · rintro rfl
          exact hs.tree.apart htable
        · rintro rfl
          exact htop.2 htable
      rw [if_pos hp, if_pos hp, entryAt_congr hframe (ptIndex_lt v) hkept]
    · rw [if_neg hp, if_neg hp]
  obtain ⟨hpdt, hesp⟩ := replaceWith_proc k s p addr pd stack argc
  obtain ⟨hword, hargv, henvp⟩ := stackWords_load (m := s.mem) hpage hargc
  exact ⟨hpdt, hesp, hsame, hpages, hword, hargv, henvp⟩

end Replace

end DosKernel
