import DosKernel.Paging.Pages

/-! `mmu_clone_pdt`. Frames are drawn from the bitmap while the source is walked.
A frame that was allocated before is never the new one, so the pages of the
source stay as they are, and what was already built stays while the walk goes on. -/

namespace DosKernel

open Lib

/-- From `s` to `s'` frames were only allocated, and the pages that were
allocated in `s` have not changed, the page `w` apart. -/
structure Grows (w : ℕ) (s s' : Mmu) : Prop where
  region : s'.bitmap.Region
  marked : ∀ {p}, s.bitmap.Marked p → s'.bitmap.Marked p
  same : ∀ {p}, s.bitmap.Marked p → p ≠ w → SamePage s'.mem s.mem p
  kernelPdt_eq : s'.kernelPdt = s.kernelPdt

namespace Grows

variable {w : ℕ} {s s' s'' : Mmu}

theorem refl (w : ℕ) (hr : s.bitmap.Region) : Grows w s s :=
  ⟨hr, id, fun _ _ _ _ _ => rfl, rfl⟩

theorem trans (h : Grows w s s') (h' : Grows w s' s'') : Grows w s s'' :=
  ⟨h'.region, fun hp => h'.marked (h.marked hp),
    fun hp hw => (h'.same (h.marked hp) hw).trans (h.same hp hw),
    h'.kernelPdt_eq.trans h.kernelPdt_eq⟩

/-- An exception that was not allocated in the first state is none. -/
theorem trans_fresh {w' : ℕ} (h : Grows w s s') (h' : Grows w' s' s'')
    (hw : ¬ s.bitmap.Marked w') : Grows w s s'' :=
  ⟨h'.region, fun hp => h'.marked (h.marked hp), fun hp hpw =>
    (h'.same (h.marked hp) fun he => hw (he ▸ hp)).trans (h.same hp hpw),
    h'.kernelPdt_eq.trans h.kernelPdt_eq⟩

end Grows

/-- The entry `j` of the new table `pt'` maps a copy of what the entry of `pt`
maps, in a frame outside `avoid`. -/
structure PageCloned (avoid : ℕ → Prop) (s₀ s : Mmu) (pt pt' j : ℕ) : Prop where
  absent : (entryAt s₀.mem (pt + 4 * j)).present = false →
    (entryAt s.mem (pt' + 4 * j)).present = false
  copied : (entryAt s₀.mem (pt + 4 * j)).present = true →
    ∃ q, IsPage q ∧ ¬ avoid q ∧ s.bitmap.Marked q ∧
      entryAt s.mem (pt' + 4 * j) = (entryAt s₀.mem (pt + 4 * j)).withFrame q ∧
      ∀ x < 4096, s.mem (q + x) = s₀.mem ((entryAt s₀.mem (pt + 4 * j)).frame + x)

theorem PageCloned.keep {avoid : ℕ → Prop} {s₀ s s' : Mmu} {pt pt' j w : ℕ}
    (h : PageCloned avoid s₀ s pt pt' j) (hg : Grows w s s') (hw : avoid w)
    (he : entryAt s'.mem (pt' + 4 * j) = entryAt s.mem (pt' + 4 * j)) :
    PageCloned avoid s₀ s' pt pt' j := by
  refine ⟨fun hp => by rw [he]; exact h.absent hp, fun hp => ?_⟩
  obtain ⟨q, hq, hav, hm, hentry, hbytes⟩ := h.copied hp
  refine ⟨q, hq, hav, hg.marked hm, he.trans hentry, fun x hx => ?_⟩
  rw [hg.same hm (fun hqw => hav (hqw ▸ hw)) (q + x) (by omega) (by omega), hbytes x hx]

theorem PageCloned.mono {avoid avoid' : ℕ → Prop} {s₀ s : Mmu} {pt pt' j : ℕ}
    (h : PageCloned avoid s₀ s pt pt' j) (hsub : ∀ q, avoid' q → avoid q) :
    PageCloned avoid' s₀ s pt pt' j := by
  refine ⟨h.absent, fun hp => ?_⟩
  obtain ⟨q, hq, hav, hrest⟩ := h.copied hp
  exact ⟨q, hq, fun h' => hav (hsub q h'), hrest⟩

/-! ### One page table -/

/-- The inner loop before index `j`, entered in state `s₁`. -/
structure TableInv (s₀ s₁ : Mmu) (pt newPt j : ℕ) (s : Mmu) : Prop where
  grows : Grows newPt s₁ s
  done : ∀ k < j, PageCloned s₁.bitmap.Marked s₀ s pt newPt k
  rest : ∀ k, j ≤ k → k < 1024 → (entryAt s.mem (newPt + 4 * k)).present = false

/-- What the inner loop relies on: the source table and its pages were allocated
in `s₀` and have not changed, and the new table is not one of them. -/
structure TableSource (s₀ s₁ : Mmu) (pt newPt : ℕ) : Prop where
  region : s₁.bitmap.Region
  marked : ∀ {p}, s₀.bitmap.Marked p → s₁.bitmap.Marked p
  same : ∀ {p}, s₀.bitmap.Marked p → SamePage s₁.mem s₀.mem p
  source : s₀.bitmap.Marked pt
  pages : ∀ j < 1024, (entryAt s₀.mem (pt + 4 * j)).present = true →
    s₀.bitmap.Marked (entryAt s₀.mem (pt + 4 * j)).frame
  target : s₁.bitmap.Marked newPt
  fresh : ¬ s₀.bitmap.Marked newPt

theorem clonePage_of_absent {s : Mmu} {pt newPt j : ℕ}
    (h : (entryAt s.mem (pt + 4 * j)).present = false) : clonePage pt newPt j s = (true, s) := by
  simp [clonePage, h]

/-- One step of the inner loop on a present page. -/
theorem clonePage_of_present {s : Mmu} {pt newPt j : ℕ} (hr : s.bitmap.Region) (hpt : IsPage pt)
    (hnewPt : IsPage newPt) (hne : pt ≠ newPt) (hj : j < 1024)
    (hpres : (entryAt s.mem (pt + 4 * j)).present = true)
    (hok : (clonePage pt newPt j s).1 = true) :
    ∃ q b', s.bitmap.Grants b' q 1 ∧ clonePage pt newPt j s =
      (true, { s with
        bitmap := b'
        mem := (setEntry s.mem (newPt + 4 * j) ((entryAt s.mem (pt + 4 * j)).withFrame q)).copy
          q (entryAt s.mem (pt + 4 * j)).frame 4096 }) := by
  have hq : (bitmapAllocPage s.bitmap).1 ≠ 0 := by
    intro h0
    simp [clonePage, hpres, h0] at hok
  have hgr := bitmapAllocPage_grants hr hq
  refine ⟨_, _, hgr, ?_⟩
  simp only [clonePage, hpres, if_true, if_neg hq]
  rw [entryAt_setEntry_self hnewPt hj, PageEntry.frame_withFrame _ hgr.isPage,
    entryAt_congr hpt hj (samePage_setEntry hnewPt hj hpt hne)]

namespace TableInv

variable {s₀ s₁ s : Mmu} {pt newPt j : ℕ}

theorem same (hs : TableInv s₀ s₁ pt newPt j s) (hsrc : TableSource s₀ s₁ pt newPt) {p : ℕ}
    (hp : s₀.bitmap.Marked p) : SamePage s.mem s₀.mem p :=
  (hs.grows.same (hsrc.marked hp) fun he => hsrc.fresh (he ▸ hp)).trans (hsrc.same hp)

theorem step (hs : TableInv s₀ s₁ pt newPt j s) (hsrc : TableSource s₀ s₁ pt newPt) (hj : j < 1024)
    (hok : (clonePage pt newPt j s).1 = true) :
    TableInv s₀ s₁ pt newPt (j + 1) (clonePage pt newPt j s).2 := by
  have hnewPt := hsrc.target.isPage hsrc.region
  have hpt : IsPage pt := (hsrc.marked hsrc.source).isPage hsrc.region
  have hp : entryAt s.mem (pt + 4 * j) = entryAt s₀.mem (pt + 4 * j) :=
    entryAt_congr hpt hj (hs.same hsrc hsrc.source)
  by_cases hpres : (entryAt s₀.mem (pt + 4 * j)).present = true
  · obtain ⟨q, b', hgr, heq⟩ := clonePage_of_present hs.grows.region hpt hnewPt
      (fun he => hsrc.fresh (he ▸ hsrc.source)) hj (hp ▸ hpres) hok
    rw [hp] at heq
    have hq := hgr.isPage
    have hframe := hsrc.pages j hj hpres
    have hmarked : s.bitmap.Marked newPt := hs.grows.marked hsrc.target
    set e := entryAt s₀.mem (pt + 4 * j) with he
    set mem := setEntry s.mem (newPt + 4 * j) (e.withFrame q) with hmem
    rw [heq]
    dsimp only
    have htable : SamePage (mem.copy q e.frame 4096) mem newPt :=
      samePage_copy hq hnewPt (fun h => hgr.not_marked (h ▸ hmarked)) _
    have hgrow : Grows newPt s { s with bitmap := b', mem := mem.copy q e.frame 4096 } := by
      refine ⟨hgr.region, fun hp' => hgr.marked_iff.mpr (Or.inl hp'), fun hp' hpn => ?_, rfl⟩
      have hpage := hp'.isPage hs.grows.region
      exact (samePage_copy hq hpage (fun h => hgr.not_marked (h ▸ hp')) _).trans
        (samePage_setEntry hnewPt hj hpage hpn)
    have hentry : ∀ k < 1024, k ≠ j →
        entryAt (mem.copy q e.frame 4096) (newPt + 4 * k) = entryAt s.mem (newPt + 4 * k) := by
      intro k hk hkj
      rw [entryAt_congr hnewPt hk htable, hmem, entryAt_setEntry_ne hnewPt hj hk hkj.symm]
    have hcopy : ∀ x < 4096, mem.copy q e.frame 4096 (q + x) = s₀.mem (e.frame + x) := by
      intro x hx
      have hpage := e.isPage_frame
      rw [copy_byte hq hpage hx, hmem,
        samePage_setEntry hnewPt hj hpage (fun h => hsrc.fresh (h ▸ hframe)) _ (by omega) (by omega),
        hs.same hsrc hframe _ (by omega) (by omega)]
    refine ⟨hs.grows.trans hgrow, fun k hk => ?_, fun k hk hk' => ?_⟩
    · rcases Nat.lt_succ_iff_lt_or_eq.mp hk with hlt | rfl
      · exact (hs.done k hlt).keep hgrow hsrc.target (hentry k (by omega) (by omega))
      · refine ⟨fun h => absurd hpres (by rw [h]; simp), fun _ => ⟨q, hq, ?_, ?_, ?_, hcopy⟩⟩
        · exact fun h => hgr.not_marked (hs.grows.marked h)
        · exact hgr.marked_iff.mpr (Or.inr rfl)
        · rw [entryAt_congr hnewPt hj htable, hmem, entryAt_setEntry_self hnewPt hj]
    · rw [hentry k hk' (by omega)]
      exact hs.rest k (by omega) hk'
  · rw [clonePage_of_absent (by rw [hp]; simpa using hpres)]
    refine ⟨hs.grows, fun k hk => ?_, fun k hk hk' => hs.rest k (by omega) hk'⟩
    rcases Nat.lt_succ_iff_lt_or_eq.mp hk with hlt | rfl
    · exact hs.done k hlt
    · exact ⟨fun _ => hs.rest k le_rfl hj, fun h => absurd h hpres⟩

/-- The pages of the new table are fresh in the state where the table exists. -/
theorem page_fresh {n : ℕ} {s' : Mmu} (h : TableInv s₀ s₁ pt newPt n s') (hj : j < n)
    (hpj : (entryAt s'.mem (newPt + 4 * j)).present = true) :
    ¬ s₁.bitmap.Marked (entryAt s'.mem (newPt + 4 * j)).frame := by
  have hsrcj : (entryAt s₀.mem (pt + 4 * j)).present = true := by
    by_contra hno
    rw [(h.done j hj).absent (by simpa using hno)] at hpj
    cases hpj
  obtain ⟨q, hq, hav, -, hentryj, -⟩ := (h.done j hj).copied hsrcj
  rw [hentryj, PageEntry.frame_withFrame _ hq]
  exact hav

end TableInv

/-! ### The directory -/

/-- `t` is a page table of one of the first `n` directory entries. -/
def IsTable (m : Memory) (pdt n t : ℕ) : Prop :=
  ∃ k < n, (entryAt m (pdt + 4 * k)).present = true ∧ (entryAt m (pdt + 4 * k)).frame = t

def IsMappedPage (m : Memory) (pdt n q : ℕ) : Prop :=
  ∃ k < n, (entryAt m (pdt + 4 * k)).present = true ∧ ∃ j < 1024,
    (entryAt m ((entryAt m (pdt + 4 * k)).frame + 4 * j)).present = true ∧
    (entryAt m ((entryAt m (pdt + 4 * k)).frame + 4 * j)).frame = q

section Congr
variable {m m' : Memory} {pdt n t q : ℕ}

theorem isPage_of_isTable (h : IsTable m pdt n t) : IsPage t := by
  obtain ⟨k, -, -, rfl⟩ := h
  exact PageEntry.isPage_frame _

theorem isPage_of_isMappedPage (h : IsMappedPage m pdt n q) : IsPage q := by
  obtain ⟨k, -, -, j, -, -, rfl⟩ := h
  exact PageEntry.isPage_frame _

theorem isTable_congr
    (h : ∀ k < n, entryAt m' (pdt + 4 * k) = entryAt m (pdt + 4 * k)) :
    IsTable m' pdt n t ↔ IsTable m pdt n t := by
  refine exists_congr fun k => and_congr_right fun hk => ?_
  rw [h k hk]

theorem isMappedPage_congr
    (h : ∀ k < n, entryAt m' (pdt + 4 * k) = entryAt m (pdt + 4 * k))
    (ht : ∀ t, IsTable m pdt n t → SamePage m' m t) :
    IsMappedPage m' pdt n q ↔ IsMappedPage m pdt n q := by
  refine exists_congr fun k => and_congr_right fun hk => ?_
  rw [h k hk]
  refine and_congr_right fun hp => exists_congr fun j => and_congr_right fun hj => ?_
  rw [entryAt_congr (PageEntry.isPage_frame _) hj (ht _ ⟨k, hk, hp, rfl⟩)]

end Congr

/-- The directory, its user tables and their pages are marked allocated. -/
structure UserMarked (s : Mmu) (pdt : ℕ) : Prop where
  dir : s.bitmap.Marked pdt
  table : ∀ {t}, IsTable s.mem pdt 768 t → s.bitmap.Marked t
  page : ∀ {q}, IsMappedPage s.mem pdt 768 q → s.bitmap.Marked q

/-- The entry `k` of the new directory has its own table, a clone of the source's. -/
structure EntryCloned (s₀ s : Mmu) (pdt newPdt k : ℕ) : Prop where
  absent : (entryAt s₀.mem (pdt + 4 * k)).present = false →
    (entryAt s.mem (newPdt + 4 * k)).present = false
  copied : (entryAt s₀.mem (pdt + 4 * k)).present = true →
    ∃ t, IsPage t ∧ ¬ s₀.bitmap.Marked t ∧ t ≠ newPdt ∧ s.bitmap.Marked t ∧
      entryAt s.mem (newPdt + 4 * k) = (entryAt s₀.mem (pdt + 4 * k)).withFrame t ∧
      ∀ j < 1024, PageCloned (fun q => s₀.bitmap.Marked q ∨ q = newPdt) s₀ s
        (entryAt s₀.mem (pdt + 4 * k)).frame t j

theorem EntryCloned.keep {s₀ s s' : Mmu} {pdt newPdt k : ℕ} (h : EntryCloned s₀ s pdt newPdt k)
    (hg : Grows newPdt s s')
    (he : entryAt s'.mem (newPdt + 4 * k) = entryAt s.mem (newPdt + 4 * k)) :
    EntryCloned s₀ s' pdt newPdt k := by
  refine ⟨fun hp => by rw [he]; exact h.absent hp, fun hp => ?_⟩
  obtain ⟨t, ht, hfresh, hne, hm, hentry, hpages⟩ := h.copied hp
  refine ⟨t, ht, hfresh, hne, hg.marked hm, he.trans hentry, fun j hj => ?_⟩
  exact (hpages j hj).keep hg (Or.inr rfl) (entryAt_congr ht hj (hg.same hm hne))

theorem cloneEntry_of_absent {s : Mmu} {pdt newPdt i : ℕ}
    (h : (entryAt s.mem (pdt + 4 * i)).present = false) : cloneEntry pdt newPdt i s = (true, s) := by
  simp [cloneEntry, h]

/-- One step of the outer loop on a present entry, up to the inner loop. -/
theorem cloneEntry_of_present {s : Mmu} {pdt newPdt i : ℕ} (hr : s.bitmap.Region)
    (hpdt : s.bitmap.Marked pdt) (hi : i < 1024)
    (hpres : (entryAt s.mem (pdt + 4 * i)).present = true)
    (hok : (cloneEntry pdt newPdt i s).1 = true) :
    ∃ t b', s.bitmap.Grants b' t 1 ∧ cloneEntry pdt newPdt i s =
      tryRange (clonePage (entryAt s.mem (pdt + 4 * i)).frame t) 1024 0 { s with
        bitmap := b'
        mem := setEntry (s.mem.fill t 4096 0) (newPdt + 4 * i)
          ((entryAt s.mem (pdt + 4 * i)).withFrame t) } := by
  have ht : (bitmapAllocPage s.bitmap).1 ≠ 0 := by
    intro h0
    simp [cloneEntry, hpres, h0] at hok
  have hgr := bitmapAllocPage_grants hr ht
  refine ⟨_, _, hgr, ?_⟩
  have hpage := hpdt.isPage hr
  simp only [cloneEntry, hpres, if_true, if_neg ht]
  rw [entryAt_congr hpage hi (samePage_fill hgr.isPage hpage
    (fun h => hgr.not_marked (h ▸ hpdt)) 0)]

/-- The outer loop before index `i`. -/
structure DirInv (s₀ : Mmu) (pdt newPdt i : ℕ) (s : Mmu) : Prop where
  grows : Grows newPdt s₀ s
  dir : s.bitmap.Marked newPdt
  done : ∀ k < i, EntryCloned s₀ s pdt newPdt k
  rest : ∀ k, i ≤ k → k < 1024 → (entryAt s.mem (newPdt + 4 * k)).present = false
  apart : ∀ {q}, IsMappedPage s.mem newPdt i q → ¬ IsTable s.mem newPdt i q

namespace DirInv

variable {s₀ s : Mmu} {pdt newPdt i : ℕ}

theorem table_fresh (hs : DirInv s₀ pdt newPdt i s) {t : ℕ} (ht : IsTable s.mem newPdt i t) :
    s.bitmap.Marked t ∧ t ≠ newPdt ∧ ¬ s₀.bitmap.Marked t := by
  obtain ⟨k, hk, hpres, rfl⟩ := ht
  have hsrc : (entryAt s₀.mem (pdt + 4 * k)).present = true := by
    by_contra hno
    rw [(hs.done k hk).absent (by simpa using hno)] at hpres
    cases hpres
  obtain ⟨t, ht, hfresh, hne, hm, hentry, -⟩ := (hs.done k hk).copied hsrc
  rw [hentry, PageEntry.frame_withFrame _ ht]
  exact ⟨hm, hne, hfresh⟩

theorem page_fresh (hs : DirInv s₀ pdt newPdt i s) {q : ℕ} (hq : IsMappedPage s.mem newPdt i q) :
    s.bitmap.Marked q ∧ q ≠ newPdt ∧ ¬ s₀.bitmap.Marked q := by
  obtain ⟨k, hk, hpres, j, hj, hpj, rfl⟩ := hq
  have hsrc : (entryAt s₀.mem (pdt + 4 * k)).present = true := by
    by_contra hno
    rw [(hs.done k hk).absent (by simpa using hno)] at hpres
    cases hpres
  obtain ⟨t, ht, -, -, -, hentry, hpages⟩ := (hs.done k hk).copied hsrc
  rw [hentry, PageEntry.frame_withFrame _ ht] at hpj ⊢
  have hsrcj : (entryAt s₀.mem ((entryAt s₀.mem (pdt + 4 * k)).frame + 4 * j)).present = true := by
    by_contra hno
    rw [(hpages j hj).absent (by simpa using hno)] at hpj
    cases hpj
  obtain ⟨q, hq, hav, hm, hentryj, -⟩ := (hpages j hj).copied hsrcj
  rw [hentryj, PageEntry.frame_withFrame _ hq]
  exact ⟨hm, fun h => hav (Or.inr h), fun h => hav (Or.inl h)⟩

/-- The state `s₁` in which the inner loop starts: the table `t` is new and
empty, and entry `i` of the new directory points to it. -/
structure NewTable (s₀ s s₁ : Mmu) (pdt newPdt i t : ℕ) : Prop where
  grants : s.bitmap.Grants s₁.bitmap t 1
  mem_eq : s₁.mem = setEntry (s.mem.fill t 4096 0) (newPdt + 4 * i)
    ((entryAt s₀.mem (pdt + 4 * i)).withFrame t)
  kernelPdt_eq : s₁.kernelPdt = s.kernelPdt

section NewTable
variable {s₁ : Mmu} {t : ℕ}

theorem ne_table (hs : DirInv s₀ pdt newPdt i s) (hn : NewTable s₀ s s₁ pdt newPdt i t) :
    newPdt ≠ t := fun h => hn.grants.not_marked (h ▸ hs.dir)

theorem grows_table (hs : DirInv s₀ pdt newPdt i s) (hn : NewTable s₀ s s₁ pdt newPdt i t)
    (hi : i < 768) : Grows newPdt s s₁ := by
  have hr := hs.grows.region
  refine ⟨hn.grants.region, fun hp => hn.grants.marked_iff.mpr (Or.inl hp), fun hp hpn => ?_,
    hn.kernelPdt_eq⟩
  have hpage := hp.isPage hr
  rw [hn.mem_eq]
  exact (samePage_setEntry (hs.dir.isPage hr) (by omega) hpage hpn).trans
    (samePage_fill hn.grants.isPage hpage (fun h => hn.grants.not_marked (h ▸ hp)) 0)

theorem tableSource (hs : DirInv s₀ pdt newPdt i s) (hn : NewTable s₀ s s₁ pdt newPdt i t)
    (hu : UserMarked s₀ pdt) (hfresh : ¬ s₀.bitmap.Marked newPdt) (hi : i < 768)
    (hpres : (entryAt s₀.mem (pdt + 4 * i)).present = true) :
    TableSource s₀ s₁ (entryAt s₀.mem (pdt + 4 * i)).frame t := by
  have hgrow := hs.grows_table hn hi
  refine ⟨hn.grants.region, fun hp => hgrow.marked (hs.grows.marked hp), @fun p hp => ?_, ?_, ?_,
    ?_, ?_⟩
  · have hpn : p ≠ newPdt := fun he => hfresh (he ▸ hp)
    exact (hgrow.same (hs.grows.marked hp) hpn).trans (hs.grows.same hp hpn)
  · exact hu.table ⟨i, hi, hpres, rfl⟩
  · exact fun j hj hpj => hu.page ⟨i, hi, hpres, j, hj, hpj, rfl⟩
  · exact hn.grants.marked_iff.mpr (Or.inr rfl)
  · exact fun h => hn.grants.not_marked (hs.grows.marked h)

theorem tableInv_init (hs : DirInv s₀ pdt newPdt i s) (hn : NewTable s₀ s s₁ pdt newPdt i t)
    (hi : i < 768) : TableInv s₀ s₁ (entryAt s₀.mem (pdt + 4 * i)).frame t 0 s₁ := by
  have ht := hn.grants.isPage
  refine ⟨Grows.refl t hn.grants.region, by simp, fun k _ hk => ?_⟩
  rw [hn.mem_eq, entryAt_congr ht hk (samePage_setEntry (hs.dir.isPage hs.grows.region) (by omega) ht
    (hs.ne_table hn).symm)]
  exact entryAt_fill ht hk

/-- The new directory after the inner loop: one entry was added. -/
theorem entry_after (hs : DirInv s₀ pdt newPdt i s) (hn : NewTable s₀ s s₁ pdt newPdt i t)
    (hi : i < 768) {s' : Mmu} (hgrow : Grows t s₁ s') {k : ℕ} (hk : k < 1024) :
    entryAt s'.mem (newPdt + 4 * k) = if k = i then (entryAt s₀.mem (pdt + 4 * i)).withFrame t
      else entryAt s.mem (newPdt + 4 * k) := by
  have hnew := hs.dir.isPage hs.grows.region
  have hne := hs.ne_table hn
  rw [entryAt_congr hnew hk (hgrow.same ((hs.grows_table hn hi).marked hs.dir) hne), hn.mem_eq]
  split_ifs with hki
  · rw [hki, entryAt_setEntry_self hnew (by omega)]
  · rw [entryAt_setEntry_ne hnew (by omega) hk (Ne.symm hki),
      entryAt_congr hnew hk (samePage_fill hn.grants.isPage hnew hne 0)]

theorem extend (hs : DirInv s₀ pdt newPdt i s) (hn : NewTable s₀ s s₁ pdt newPdt i t)
    (hsrc : TableSource s₀ s₁ (entryAt s₀.mem (pdt + 4 * i)).frame t) (hi : i < 768)
    (hpres : (entryAt s₀.mem (pdt + 4 * i)).present = true) {s' : Mmu}
    (htab : TableInv s₀ s₁ (entryAt s₀.mem (pdt + 4 * i)).frame t 1024 s') :
    DirInv s₀ pdt newPdt (i + 1) s' := by
  have ht := hn.grants.isPage
  have hgrow₁ := hs.grows_table hn hi
  have hgrow : Grows newPdt s s' := hgrow₁.trans_fresh htab.grows hn.grants.not_marked
  have hkeep : ∀ k < 1024, k ≠ i →
      entryAt s'.mem (newPdt + 4 * k) = entryAt s.mem (newPdt + 4 * k) := fun k hk hki => by
    rw [hs.entry_after hn hi htab.grows hk, if_neg hki]
  have hentry : entryAt s'.mem (newPdt + 4 * i) = (entryAt s₀.mem (pdt + 4 * i)).withFrame t := by
    rw [hs.entry_after hn hi htab.grows (by omega), if_pos rfl]
  have hframe : (entryAt s'.mem (newPdt + 4 * i)).frame = t := by
    rw [hentry, PageEntry.frame_withFrame _ ht]
  have htables : ∀ {x}, IsTable s'.mem newPdt (i + 1) x → IsTable s.mem newPdt i x ∨ x = t := by
    rintro x ⟨k, hk, hpk, rfl⟩
    rcases Nat.lt_succ_iff_lt_or_eq.mp hk with hlt | rfl
    · rw [hkeep k (by omega) (by omega)] at hpk ⊢
      exact Or.inl ⟨k, hlt, hpk, rfl⟩
    · exact Or.inr hframe
  refine ⟨hs.grows.trans hgrow, hgrow.marked hs.dir, fun k hk => ?_, fun k hk hk' => ?_, ?_⟩
  · rcases Nat.lt_succ_iff_lt_or_eq.mp hk with hlt | rfl
    · exact (hs.done k hlt).keep hgrow (hkeep k (by omega) (by omega))
    · refine ⟨fun h => absurd hpres (by rw [h]; simp), fun _ => ⟨t, ht, hsrc.fresh,
        (hs.ne_table hn).symm, htab.grows.marked hsrc.target, hentry,
        fun j hj => (htab.done j hj).mono ?_⟩⟩
      rintro q (hq | rfl)
      · exact hsrc.marked hq
      · exact hgrow₁.marked hs.dir
  · rw [hkeep k hk' (by omega)]
    exact hs.rest k (by omega) hk'
  · rintro q ⟨k, hk, hpk, j, hj, hpj, hq⟩ htable
    rcases Nat.lt_succ_iff_lt_or_eq.mp hk with hlt | rfl
    · rw [hkeep k (by omega) (by omega)] at hpk hpj hq
      have htk := hs.table_fresh ⟨k, hlt, hpk, rfl⟩
      rw [entryAt_congr (PageEntry.isPage_frame _) hj (hgrow.same htk.1 htk.2.1)] at hpj hq
      have hold : IsMappedPage s.mem newPdt i q := ⟨k, hlt, hpk, j, hj, hpj, hq⟩
      rcases htables htable with h | h
      · exact hs.apart hold h
      · exact hn.grants.not_marked (h ▸ (hs.page_fresh hold).1)
    · rw [hframe] at hpj hq
      have hnot := htab.page_fresh hj hpj
      rw [hq] at hnot
      rcases htables htable with h | h
      · exact hnot (hgrow₁.marked (hs.table_fresh h).1)
      · exact hnot (h ▸ hsrc.target)

end NewTable

theorem init {s : Mmu} {pdt : ℕ} (hr : s.bitmap.Region) (hne : (mmuNewPageDirectory s).1 ≠ 0) :
    DirInv s pdt (mmuNewPageDirectory s).1 0 (mmuNewPageDirectory s).2 := by
  have hgr := bitmapAllocPage_grants hr hne
  refine ⟨⟨hgr.region, fun hp => hgr.marked_iff.mpr (Or.inl hp), fun hp hpn => ?_, rfl⟩,
    hgr.marked_iff.mpr (Or.inr rfl), by simp, fun k _ hk => entryAt_fill hgr.isPage hk, ?_⟩
  · exact samePage_fill hgr.isPage (hp.isPage hr) hpn 0
  · rintro q ⟨k, hk, -⟩
    exact absurd hk (by omega)

theorem step (hs : DirInv s₀ pdt newPdt i s) (hu : UserMarked s₀ pdt)
    (hfresh : ¬ s₀.bitmap.Marked newPdt) (hi : i < 768)
    (hok : (cloneEntry pdt newPdt i s).1 = true) :
    DirInv s₀ pdt newPdt (i + 1) (cloneEntry pdt newPdt i s).2 := by
  have hr := hs.grows.region
  have hpdt : s.bitmap.Marked pdt := hs.grows.marked hu.dir
  have hpd : entryAt s.mem (pdt + 4 * i) = entryAt s₀.mem (pdt + 4 * i) :=
    entryAt_congr (hpdt.isPage hr) (by omega)
      (hs.grows.same hu.dir fun he => hfresh (he ▸ hu.dir))
  by_cases hpres : (entryAt s₀.mem (pdt + 4 * i)).present = true
  · obtain ⟨t, b', hgr, heq⟩ := cloneEntry_of_present hr hpdt (by omega) (hpd ▸ hpres) hok
    rw [hpd] at heq
    rw [heq] at hok ⊢
    have hn : NewTable s₀ s { s with
        bitmap := b'
        mem := setEntry (s.mem.fill t 4096 0) (newPdt + 4 * i)
          ((entryAt s₀.mem (pdt + 4 * i)).withFrame t) } pdt newPdt i t := ⟨hgr, rfl, rfl⟩
    have hsrc := hs.tableSource hn hu hfresh hi hpres
    refine hs.extend hn hsrc hi hpres ?_
    have := tryRange_invariant (fun k s' _ hk hb hI => TableInv.step hI hsrc (by omega) hb) hok
      (hs.tableInv_init hn hi)
    exact this
  · have hrest := hs.rest i le_rfl (by omega)
    rw [cloneEntry_of_absent (by rw [hpd]; simpa using hpres)]
    refine ⟨hs.grows, hs.dir, fun k hk => ?_, fun k hk hk' => hs.rest k (by omega) hk', ?_⟩
    · rcases Nat.lt_succ_iff_lt_or_eq.mp hk with hlt | rfl
      · exact hs.done k hlt
      · exact ⟨fun _ => hrest, fun h => absurd h hpres⟩
    · have hlast : ∀ k < i + 1, (entryAt s.mem (newPdt + 4 * k)).present = true → k < i := by
        intro k hk hpk
        rcases Nat.lt_succ_iff_lt_or_eq.mp hk with hlt | rfl
        · exact hlt
        · rw [hrest] at hpk
          cases hpk
      rintro q ⟨k, hk, hpk, hpage⟩ ⟨k', hk', hpk', htable⟩
      exact hs.apart ⟨k, hlast k hk hpk, hpk, hpage⟩ ⟨k', hlast k' hk' hpk', hpk', htable⟩

end DirInv

/-- What `mmu_clone_pdt` leaves behind. -/
structure Cloned (s₀ s : Mmu) (pdt newPdt : ℕ) : Prop where
  grows : Grows newPdt s₀ s
  fresh : ¬ s₀.bitmap.Marked newPdt
  dir : s.bitmap.Marked newPdt
  entry : ∀ k < 768, EntryCloned s₀ s pdt newPdt k
  table_fresh : ∀ {t}, IsTable s.mem newPdt 768 t →
    s.bitmap.Marked t ∧ t ≠ newPdt ∧ ¬ s₀.bitmap.Marked t
  page_fresh : ∀ {q}, IsMappedPage s.mem newPdt 768 q →
    s.bitmap.Marked q ∧ q ≠ newPdt ∧ ¬ s₀.bitmap.Marked q
  apart : ∀ {q}, IsMappedPage s.mem newPdt 768 q → ¬ IsTable s.mem newPdt 768 q
  kernel : IsPage s₀.kernelPdt → s₀.bitmap.Marked s₀.kernelPdt → ∀ i, 768 ≤ i → i < 1024 →
    entryAt s.mem (newPdt + 4 * i) = entryAt s₀.mem (s₀.kernelPdt + 4 * i)

theorem DirInv.cloned {s₀ s s' : Mmu} {pdt newPdt : ℕ} (hs : DirInv s₀ pdt newPdt 768 s)
    (hfresh : ¬ s₀.bitmap.Marked newPdt) (hc : KernelCopied s s' newPdt 1024) :
    Cloned s₀ s' pdt newPdt := by
  have hnew := hs.dir.isPage hs.grows.region
  have h1 := hnew.aligned
  have h2 := hnew.top
  have hgrow : Grows newPdt s s' := by
    refine ⟨by rw [hc.bitmap_eq]; exact hs.grows.region, fun hp => by rw [hc.bitmap_eq]; exact hp,
      fun hp hpn x hx hx' => hc.other x ?_, hc.kernelPdt_eq⟩
    have h3 := (hp.isPage hs.grows.region).aligned
    omega
  have hentry : ∀ k < 768, entryAt s'.mem (newPdt + 4 * k) = entryAt s.mem (newPdt + 4 * k) := by
    intro k hk
    rw [entryAt, entryAt]
    congr 1
    exact Memory.load_congr (by simp only [space]; omega) fun x hx hx' => hc.other x (by omega)
  have htable : ∀ t, IsTable s'.mem newPdt 768 t ↔ IsTable s.mem newPdt 768 t :=
    fun t => isTable_congr hentry
  have hpage : ∀ q, IsMappedPage s'.mem newPdt 768 q ↔ IsMappedPage s.mem newPdt 768 q :=
    fun q => isMappedPage_congr hentry fun t ht =>
      hgrow.same (hs.table_fresh ht).1 (hs.table_fresh ht).2.1
  refine ⟨hs.grows.trans hgrow, hfresh, hgrow.marked hs.dir,
    fun k hk => (hs.done k hk).keep hgrow (hentry k hk), fun ht => ?_, fun hq => ?_,
    fun hq ht => ?_, fun hkp hk i hi hi' => ?_⟩
  · rw [hc.bitmap_eq]
    exact hs.table_fresh ((htable _).mp ht)
  · rw [hc.bitmap_eq]
    exact hs.page_fresh ((hpage _).mp hq)
  · exact hs.apart ((hpage _).mp hq) ((htable _).mp ht)
  · have hne : s₀.kernelPdt ≠ newPdt := fun h => hfresh (h ▸ hk)
    have hkeq := hs.grows.kernelPdt_eq
    rw [hc.entry (hkeq ▸ hne) (hkeq ▸ hkp) i hi hi', hkeq,
      entryAt_congr hkp hi' (hs.grows.same hk hne)]

end DosKernel
