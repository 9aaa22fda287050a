import DosKernel.Lib.Runs
import DosKernel.Paging.Isolation
import DosKernel.Paging.Mapping

/-! The kernel half of the address spaces. A process gets the upper directory entries of
`kernel_pdt` when its directory is made, and they are never updated afterwards: what
`mmu_alloc_pages` maps later is seen by the process only inside the tables it shares. -/

namespace DosKernel

open Lib

/-- The arguments of a call of `mmu_map_pages`. -/
structure MapCall where
  realAddr : ℕ
  virtAddr : BitVec 32
  len : ℕ
  rw : Bool
  user : Bool

/-- A directory for a new program: a new page, the mappings of the program, then
`mmu_copy_kernel_pages`. -/
def createDirectory (s : Mmu) (maps : List MapCall) : ℕ × Mmu :=
  let r := mmuNewPageDirectory s
  let s' := maps.foldl
    (fun s c => mmuMapPages s r.1 c.realAddr c.virtAddr.toNat c.len c.rw c.user) r.2
  (r.1, mmuCopyKernelPages s' r.1)

/-! ### A directory under construction -/

/-- Between `s₀` and `s` only the directory `pdt`, its tables and the page at `NULL`
were written. -/
structure Building (s₀ : Mmu) (pdt : ℕ) (s : Mmu) : Prop where
  region : s.bitmap.Region
  marked : ∀ {p}, s₀.bitmap.Marked p → s.bitmap.Marked p
  dir : s.bitmap.Marked pdt
  same : ∀ {p}, s₀.bitmap.Marked p → p ≠ 0 → SamePage s.mem s₀.mem p
  table : ∀ {t}, IsTable s.mem pdt 1024 t → t ≠ pdt ∧ (t = 0 ∨ ¬ s₀.bitmap.Marked t)
  rest : { s with mem := s₀.mem, bitmap := s₀.bitmap } = s₀

theorem PageMapped.isTable {s s' : Mmu} {pdt i j t real : ℕ} {rw user : Bool}
    (h : PageMapped s s' pdt i j t real rw user) {n x : ℕ} (hn : n ≤ 1024)
    (hx : IsTable s'.mem pdt n x) : x = t ∨ IsTable s.mem pdt n x := by
  obtain ⟨k, hk, hp, rfl⟩ := hx
  by_cases hki : k = i
  · subst hki
    rw [h.entry, PageEntry.frame_mapTo _ _ _ h.page]
    exact .inl rfl
  · rw [h.other k (by omega) hki] at hp ⊢
    exact .inr ⟨k, hk, hp, rfl⟩

namespace Building

variable {s₀ s : Mmu} {pdt : ℕ}

theorem start {s : Mmu} (hr : s.bitmap.Region) (h0 : (mmuNewPageDirectory s).1 ≠ 0) :
    ¬ s.bitmap.Marked (mmuNewPageDirectory s).1 ∧
      Building s (mmuNewPageDirectory s).1 (mmuNewPageDirectory s).2 := by
  have hz := allocZeroed_spec hr
  have hgr := hz.fresh.resolve_left h0
  refine ⟨hgr.not_marked, hz.region, hz.marked, hgr.marked_iff.mpr (.inr rfl),
    fun hp _ => hz.same (hp.isPage hr) fun he => hgr.not_marked (he ▸ hp), ?_, hz.rest⟩
  rintro t ⟨k, hk, hp, -⟩
  have habsent := hz.zero k hk
  rw [mmuNewPageDirectory, habsent] at hp
  cases hp

theorem mapPage (h : Building s₀ pdt s) (hfresh : ¬ s₀.bitmap.Marked pdt) (h0 : pdt ≠ 0)
    {real virt : ℕ} {rw user : Bool} (hv : virt < 4294967296) :
    Building s₀ pdt (mapPage s pdt real virt rw user) := by
  obtain ⟨t, hne, hm⟩ := mapPage_spec real rw user h.region h.dir h0
    (fun ht => (h.table ht).1 rfl) hv
  have ht : t = 0 ∨ ¬ s₀.bitmap.Marked t := by
    rcases hm.table with ⟨hp, ht, -⟩ | ⟨-, ht | hgr⟩
    · have hi : pdIndex virt < 1024 := by rw [pdIndex]; omega
      exact (h.table ⟨_, hi, hp, ht.symm⟩).2
    · exact .inl ht
    · exact .inr fun hp => hgr.not_marked (h.marked hp)
  refine ⟨hm.region, fun hp => hm.marked (h.marked hp), hm.marked h.dir, fun hp hp0 => ?_,
    fun hx => ?_, ?_⟩
  · refine (hm.same ((h.marked hp).isPage h.region) (fun he => hfresh (he ▸ hp)) ?_).trans
      (h.same hp hp0)
    rintro rfl
    exact ht.elim hp0 fun hn => hn hp
  · rcases hm.isTable le_rfl hx with rfl | hx
    · exact ⟨hne.symm, ht⟩
    · exact h.table hx
  · exact (congrArg (fun x : Mmu => { x with mem := s₀.mem, bitmap := s₀.bitmap }) hm.rest).trans
      h.rest

theorem mapPages (h : Building s₀ pdt s) (hfresh : ¬ s₀.bitmap.Marked pdt) (h0 : pdt ≠ 0) (len : ℕ)
    {real virt : ℕ} {rw user : Bool} (hv : virt < 4294967296) :
    Building s₀ pdt (mmuMapPages s pdt real virt len rw user) := by
  induction len generalizing s real virt with
  | zero => exact h
  | succ len ih => exact ih (h.mapPage hfresh h0 hv) (Nat.mod_lt _ (by decide))

theorem mapCalls (h : Building s₀ pdt s) (hfresh : ¬ s₀.bitmap.Marked pdt) (h0 : pdt ≠ 0)
    (maps : List MapCall) :
    Building s₀ pdt (maps.foldl
      (fun s c => mmuMapPages s pdt c.realAddr c.virtAddr.toNat c.len c.rw c.user) s) := by
  induction maps generalizing s with
  | nil => exact h
  | cons c maps ih => exact ih (h.mapPages hfresh h0 c.len c.virtAddr.isLt)

end Building

/-! ### A clone, whatever it is made from -/

section Clone
variable {s : Mmu} {pdt newPdt pt newPt : ℕ}

theorem clonePage_grows (hr : s.bitmap.Region) (hnew : IsPage newPt) {j : ℕ} (hj : j < 1024) :
    Grows newPt s (clonePage pt newPt j s).2 := by
  have hkeep := bitmapAllocContiguousPages_keeps hr 1
  rw [← bitmapAllocPage_eq] at hkeep
  simp only [clonePage]
  split_ifs with hp h0
  · exact ⟨hkeep.1, fun hp => hkeep.2 _ hp, fun _ _ _ _ _ => rfl, rfl⟩
  · have hgr := bitmapAllocPage_grants hr h0
    refine ⟨hkeep.1, fun hp => hkeep.2 _ hp, fun hp' hpn => ?_, rfl⟩
    have hpage := hp'.isPage hr
    dsimp only
    rw [entryAt_setEntry_self hnew hj, PageEntry.frame_withFrame _ hgr.isPage]
    exact (samePage_copy hgr.isPage hpage (fun h => hgr.not_marked (h ▸ hp')) _).trans
      (samePage_setEntry hnew hj hpage hpn)
  · exact Grows.refl _ hr

theorem cloneEntry_grows (hr : s.bitmap.Region) (hnew : s.bitmap.Marked newPdt) {i : ℕ}
    (hi : i < 1024) : Grows newPdt s (cloneEntry pdt newPdt i s).2 := by
  have hkeep := bitmapAllocContiguousPages_keeps hr 1
  rw [← bitmapAllocPage_eq] at hkeep
  simp only [cloneEntry]
  split_ifs with hp h0
  · exact ⟨hkeep.1, fun hp => hkeep.2 _ hp, fun _ _ _ _ _ => rfl, rfl⟩
  · have hgr := bitmapAllocPage_grants hr h0
    have hnewPage := hnew.isPage hr
    generalize hs₁ : ({ s with bitmap := _, mem := _ } : Mmu) = s₁
    have hfirst : Grows newPdt s s₁ := by
      rw [← hs₁]
      refine ⟨hkeep.1, fun hp => hkeep.2 _ hp, fun hp' hpn => ?_, rfl⟩
      have hpage := hp'.isPage hr
      exact (samePage_setEntry hnewPage hi hpage hpn).trans
        (samePage_fill hgr.isPage hpage (fun h => hgr.not_marked (h ▸ hp')) 0)
    refine hfirst.trans_fresh (?_ : Grows (bitmapAllocPage s.bitmap).1 s₁ _) hgr.not_marked
    exact tryRange_preserves (I := Grows (bitmapAllocPage s.bitmap).1 s₁)
      (fun k s' hk h => h.trans (clonePage_grows h.region hgr.isPage (by omega)))
      (Grows.refl _ hfirst.region)
  · exact Grows.refl _ hr

theorem clone_rest (s : Mmu) (pdt newPdt : ℕ) :
    { (tryRange (cloneEntry pdt newPdt) 768 0 s).2 with mem := s.mem, bitmap := s.bitmap } = s := by
  refine tryRange_preserves
    (I := fun s' : Mmu => { s' with mem := s.mem, bitmap := s.bitmap } = s) ?_ rfl
  intro i s' _ hs'
  simp only [cloneEntry]
  split_ifs
  · exact hs'
  · refine tryRange_preserves
      (I := fun s' : Mmu => { s' with mem := s.mem, bitmap := s.bitmap } = s) ?_ hs'
    intro j s'' _ hs''
    simp only [clonePage]
    split_ifs <;> exact hs''
  · exact hs'

end Clone

/-! ### The shared entries -/

theorem mmuCopyKernelPages_rest (s : Mmu) (pdt : ℕ) :
    { mmuCopyKernelPages s pdt with mem := s.mem } = s :=
  forRange_invariant (I := fun (_ : ℕ) (s' : Mmu) => { s' with mem := s.mem } = s) (fun _ _ _ _ h => h) rfl

/-- What a run keeps: the directories of the processes are pages of their own, apart
from `kernel_pdt` and its tables, and agree with it in the upper entries. -/
structure KernelHalf (s : Mmu) (live : List ℕ) : Prop where
  region : s.bitmap.Region
  current : s.currentPdt = s.kernelPdt
  kernelEnd : s.kernelEnd < word32
  kernel : s.bitmap.Marked s.kernelPdt
  kernel_pos : s.kernelPdt ≠ 0
  dir : ∀ d ∈ live, s.bitmap.Marked d ∧ d ≠ 0 ∧ d ≠ s.kernelPdt
  table : ∀ {t}, IsTable s.mem s.kernelPdt 1024 t →
    (t = 0 ∨ s.bitmap.Marked t) ∧ t ≠ s.kernelPdt ∧ t ∉ live
  shared : ∀ d ∈ live, ∀ i, 768 ≤ i → i < 1024 →
    entryAt s.mem (d + 4 * i) = entryAt s.mem (s.kernelPdt + 4 * i)

/-- The directory entry of `virt` keeps its value when a page is mapped there for the
kernel, or is not one that the processes have. -/
def InSharedTable (s : Mmu) (virt : ℕ) : Prop :=
  let pd := entryAt s.mem (s.kernelPdt + 4 * pdIndex virt)
  pdIndex virt < 768 ∨ pd.present = true ∧ pd.rw = true ∧ pd.user = false

theorem PageEntry.mapTo_self {e : PageEntry} (hp : e.present = true) (hrw : e.rw = true)
    (hu : e.user = false) : e.mapTo true false e.frame = e := by
  obtain ⟨present, rw, user, flags, address⟩ := e
  obtain rfl : present = true := hp
  obtain rfl : rw = true := hrw
  obtain rfl : user = false := hu
  simp [PageEntry.mapTo, PageEntry.frame]

/-- `a` is the first address from `kernel_end` on with `pages` unmapped pages. -/
def FirstGap (s : Mmu) (pages a : ℕ) : Prop :=
  ∃ n, a = (s.kernelEnd + n * bitmapPageSize) % word32 ∧
    rangeUnmapped s.mem s.currentPdt a pages = true ∧
    ∀ k < n, rangeUnmapped s.mem s.currentPdt ((s.kernelEnd + k * bitmapPageSize) % word32) pages =
      false

namespace KernelHalf

variable {s : Mmu} {live : List ℕ}

/-- Frames were allocated and other pages written; the new directory, if there is one,
has a copy of the kernel's entries. -/
theorem grow {s' : Mmu} (h : KernelHalf s live) (hregion : s'.bitmap.Region)
    (hmarked : ∀ {p}, s.bitmap.Marked p → s'.bitmap.Marked p)
    (hsame : ∀ {p}, s.bitmap.Marked p → p ≠ 0 → SamePage s'.mem s.mem p)
    (hrest : { s' with mem := s.mem, bitmap := s.bitmap } = s) : KernelHalf s' live := by
  have hk : s'.kernelPdt = s.kernelPdt := (congrArg Mmu.kernelPdt hrest :)
  have hc : s'.currentPdt = s.currentPdt := (congrArg Mmu.currentPdt hrest :)
  have he : s'.kernelEnd = s.kernelEnd := (congrArg Mmu.kernelEnd hrest :)
  have hkp := h.kernel.isPage h.region
  have hkernel : ∀ i < 1024, entryAt s'.mem (s.kernelPdt + 4 * i) =
      entryAt s.mem (s.kernelPdt + 4 * i) :=
    fun i hi => entryAt_congr hkp hi (hsame h.kernel h.kernel_pos)
  refine ⟨hregion, by rw [hk, hc, h.current], by rw [he]; exact h.kernelEnd, by
    rw [hk]; exact hmarked h.kernel, by rw [hk]; exact h.kernel_pos, fun d hd => ?_, fun ht => ?_,
    fun d hd i hi hi' => ?_⟩
  · obtain ⟨hm, hd0, hne⟩ := h.dir d hd
    rw [hk]
    exact ⟨hmarked hm, hd0, hne⟩
  · rw [hk, isTable_congr hkernel] at ht
    rw [hk]
    exact (h.table ht).imp_left fun h' => h'.imp_right hmarked
  · obtain ⟨hm, hd0, -⟩ := h.dir d hd
    rw [hk, hkernel i hi', entryAt_congr (hm.isPage h.region) hi' (hsame hm hd0), h.shared d hd i hi hi']

theorem addDir {d : ℕ} (h : KernelHalf s live) (hm : s.bitmap.Marked d) (hd0 : d ≠ 0)
    (hne : d ≠ s.kernelPdt) (htable : ¬ IsTable s.mem s.kernelPdt 1024 d)
    (hshared : ∀ i, 768 ≤ i → i < 1024 →
      entryAt s.mem (d + 4 * i) = entryAt s.mem (s.kernelPdt + 4 * i)) :
    KernelHalf s (d :: live) := by
  refine { h with dir := ?_, table := fun ht => ?_, shared := ?_ }
  · exact List.forall_mem_cons.mpr ⟨⟨hm, hd0, hne⟩, h.dir⟩
  · obtain ⟨h1, h2, h3⟩ := h.table ht
    exact ⟨h1, h2, List.not_mem_cons_of_ne_of_not_mem (fun he => htable (he ▸ ht)) h3⟩
  · exact List.forall_mem_cons.mpr ⟨hshared, h.shared⟩

/-- The new directory gets its kernel half. -/
theorem addCopied {s₁ : Mmu} {d : ℕ} (h : KernelHalf s live) (hfresh : ¬ s.bitmap.Marked d)
    (hd0 : d ≠ 0) (hregion : s₁.bitmap.Region)
    (hmarked : ∀ {p}, s.bitmap.Marked p → s₁.bitmap.Marked p) (hdir : s₁.bitmap.Marked d)
    (hsame : ∀ {p}, s.bitmap.Marked p → p ≠ 0 → SamePage s₁.mem s.mem p)
    (hrest : { s₁ with mem := s.mem, bitmap := s.bitmap } = s) :
    KernelHalf (mmuCopyKernelPages s₁ d) (d :: live) := by
  have hk : s₁.kernelPdt = s.kernelPdt := (congrArg Mmu.kernelPdt hrest :)
  have hne : d ≠ s.kernelPdt := fun he => hfresh (he ▸ h.kernel)
  have hdp := hdir.isPage hregion
  have hcopy := mmuCopyKernelPages_spec s₁ hdp
  have hrest' := (congrArg (fun x : Mmu => { x with mem := s.mem, bitmap := s.bitmap })
    (mmuCopyKernelPages_rest s₁ d)).trans hrest
  generalize mmuCopyKernelPages s₁ d = s₂ at hcopy hrest'
  have hsame₂ : ∀ {p}, s.bitmap.Marked p → p ≠ 0 → SamePage s₂.mem s.mem p := by
    intro p hp hp0
    have hpage := hp.isPage h.region
    have hpd : p ≠ d := fun he => hfresh (he ▸ hp)
    refine SamePage.trans (fun x hx hx' => hcopy.other x ?_) (hsame hp hp0)
    have h1 := hpage.aligned
    have h2 := hdp.aligned
    omega
  have h₂ : KernelHalf s₂ live :=
    h.grow (hcopy.bitmap_eq ▸ hregion) (fun hp => hcopy.bitmap_eq ▸ hmarked hp) hsame₂ hrest'
  have hk₂ : s₂.kernelPdt = s.kernelPdt := hcopy.kernelPdt_eq.trans hk
  have hkp := h.kernel.isPage h.region
  refine h₂.addDir (hcopy.bitmap_eq ▸ hdir) hd0 (hk₂ ▸ hne) (fun ht => ?_) fun i hi hi' => ?_
  · -- A table of `kernel_pdt` was allocated before.
    have hkernel : ∀ i < 1024, entryAt s₂.mem (s.kernelPdt + 4 * i) =
        entryAt s.mem (s.kernelPdt + 4 * i) :=
      fun i hi => entryAt_congr hkp hi (hsame₂ h.kernel h.kernel_pos)
    rw [hk₂, isTable_congr hkernel] at ht
    exact (h.table ht).1.elim hd0 hfresh
  · rw [hcopy.entry (hk ▸ hne.symm) (hk ▸ hkp) i hi hi', hk, hk₂,
      entryAt_congr hkp hi' ((hsame₂ h.kernel h.kernel_pos).trans (hsame h.kernel h.kernel_pos).symm)]

theorem mapPage (h : KernelHalf s live) (real : ℕ) {virt : ℕ} (hv : virt < 4294967296)
    (hshared : live = [] ∨ InSharedTable s virt) :
    KernelHalf (mapPage s s.kernelPdt real virt true false) live ∧
      (live = [] ∨ ∀ i, 768 ≤ i → i < 1024 →
        entryAt (DosKernel.mapPage s s.kernelPdt real virt true false).mem (s.kernelPdt + 4 * i) =
          entryAt s.mem (s.kernelPdt + 4 * i)) := by
  obtain ⟨t, hne, hm⟩ := mapPage_spec real true false h.region h.kernel
    h.kernel_pos (fun ht => (h.table ht).2.1 rfl) hv
  generalize DosKernel.mapPage s s.kernelPdt real virt true false = s' at hm
  have hk : s'.kernelPdt = s.kernelPdt := (congrArg Mmu.kernelPdt hm.rest :)
  have hc : s'.currentPdt = s.currentPdt := (congrArg Mmu.currentPdt hm.rest :)
  have he : s'.kernelEnd = s.kernelEnd := (congrArg Mmu.kernelEnd hm.rest :)
  have hi : pdIndex virt < 1024 := by rw [pdIndex]; omega
  have ht : (t = 0 ∨ s'.bitmap.Marked t) ∧ t ∉ live := by
    rcases hm.table with ⟨hp, ht, hb⟩ | ⟨-, ht | hgr⟩
    · obtain ⟨h1, -, h3⟩ := h.table ⟨_, hi, hp, ht.symm⟩
      exact ⟨h1.imp_right hm.marked, h3⟩
    · exact ⟨.inl ht, fun hl => (h.dir t hl).2.1 ht⟩
    · exact ⟨.inr (hgr.marked_iff.mpr (.inr rfl)), fun hl => hgr.not_marked (h.dir t hl).1⟩
  have hsteady : live = [] ∨ ∀ i, 768 ≤ i → i < 1024 →
      entryAt s'.mem (s.kernelPdt + 4 * i) = entryAt s.mem (s.kernelPdt + 4 * i) := by
    refine hshared.imp_right fun hin i hi' hi'' => ?_
    by_cases hii : i = pdIndex virt
    · obtain ⟨hp, hrw, hu⟩ := hin.resolve_left (by omega)
      rcases hm.table with ⟨-, ht, -⟩ | ⟨habsent, -⟩
      · rw [hii, hm.entry, ht, PageEntry.mapTo_self hp hrw hu]
      · rw [hp] at habsent
        cases habsent
    · exact hm.other i hi'' hii
  refine ⟨⟨hm.region, by rw [hk, hc, h.current], by rw [he]; exact h.kernelEnd, by
    rw [hk]; exact hm.marked h.kernel, by rw [hk]; exact h.kernel_pos, fun d hd => ?_, fun hx => ?_,
    fun d hd i hi' hi'' => ?_⟩, hsteady⟩
  · obtain ⟨h1, h2, h3⟩ := h.dir d hd
    rw [hk]
    exact ⟨hm.marked h1, h2, h3⟩
  · rw [hk] at hx ⊢
    rcases hm.isTable le_rfl hx with rfl | hx
    · exact ⟨ht.1, hne.symm, ht.2⟩
    · obtain ⟨h1, h2, h3⟩ := h.table hx
      exact ⟨h1.imp_right hm.marked, h2, h3⟩
  · obtain ⟨h1, h2, h3⟩ := h.dir d hd
    have hdp := h1.isPage h.region
    rw [hk, entryAt_congr hdp hi'' (hm.same hdp h3 fun heq => ht.2 (heq ▸ hd)),
      h.shared d hd i hi' hi'', hsteady.resolve_left (List.ne_nil_of_mem hd) i hi' hi'']

theorem mapPages (h : KernelHalf s live) (real len : ℕ) {virt : ℕ} (hv : virt < 4294967296)
    (hshared : live = [] ∨ ∀ i < len, InSharedTable s ((virt + i * 4096) % 4294967296)) :
    KernelHalf (mmuMapPages s s.kernelPdt real virt len true false) live := by
  induction len generalizing s real virt with
  | zero => exact h
  | succ len ih =>
    have hfirst : live = [] ∨ InSharedTable s virt :=
      hshared.imp_right fun hin => by
        have h0 := hin 0 (by omega)
        rwa [Nat.zero_mul, Nat.add_zero, Nat.mod_eq_of_lt hv] at h0
    obtain ⟨hmap, hsteady⟩ := h.mapPage real hv hfirst
    have hk : (DosKernel.mapPage s s.kernelPdt real virt true false).kernelPdt = s.kernelPdt := by
      rw [DosKernel.mapPage]
      split_ifs <;> rfl
    rw [mmuMapPages]
    generalize DosKernel.mapPage s s.kernelPdt real virt true false = s' at *
    rw [← hk]
    refine ih hmap _ (Nat.mod_lt _ (by decide)) ?_
    rcases hshared with hl | hin
    · exact .inl hl
    · refine hsteady.imp_right fun hsteady i hi => ?_
      have hnext := hin (i + 1) (by omega)
      have haddr : ((virt + bitmapPageSize) % word32 + i * 4096) % 4294967296 =
          (virt + (i + 1) * 4096) % 4294967296 := by
        simp only [bitmapPageSize, word32]
        omega
      rw [haddr]
      have hlt : pdIndex ((virt + (i + 1) * 4096) % 4294967296) < 1024 := by rw [pdIndex]; omega
      by_cases hlow : pdIndex ((virt + (i + 1) * 4096) % 4294967296) < 768
      · exact .inl hlow
      · refine .inr ?_
        rw [hk, hsteady _ (by omega) hlt]
        exact hnext.resolve_left hlow

end KernelHalf

/-! ### The operations -/

section Operations
variable {s : Mmu} {live : List ℕ}

theorem KernelHalf.create (h : KernelHalf s live) (maps : List MapCall)
    (h0 : (mmuNewPageDirectory s).1 ≠ 0) :
    KernelHalf (createDirectory s maps).2 ((createDirectory s maps).1 :: live) := by
  obtain ⟨hfresh, hbuild⟩ := Building.start h.region h0
  rw [createDirectory]
  generalize (mmuNewPageDirectory s).1 = d at *
  replace hbuild := hbuild.mapCalls hfresh h0 maps
  dsimp only
  generalize maps.foldl _ (mmuNewPageDirectory s).2 = s₁ at hbuild ⊢
  exact h.addCopied hfresh h0 hbuild.region hbuild.marked hbuild.dir hbuild.same hbuild.rest

/-- The end of `mmu_clone_pdt`, after a loop that succeeded or failed. -/
theorem KernelHalf.cloned {s₁ : Mmu} {d : ℕ} {t : Bool × Mmu} (h : KernelHalf s live)
    (hz : Zeroed s s₁ d) (hgr : s.bitmap.Grants s₁.bitmap d 1) (h0 : d ≠ 0)
    (hgrows : Grows d s₁ t.2) (hrest : { t.2 with mem := s.mem, bitmap := s.bitmap } = s) :
    KernelHalf (if t.1 then (d, mmuCopyKernelPages t.2 d) else (0, t.2)).2
      (if (if t.1 then (d, mmuCopyKernelPages t.2 d) else (0, t.2)).1 = 0 then live
        else (if t.1 then (d, mmuCopyKernelPages t.2 d) else (0, t.2)).1 :: live) := by
  have hsame : ∀ {p}, s.bitmap.Marked p → p ≠ 0 → SamePage t.2.mem s.mem p := by
    intro p hp hp0
    have hpd : p ≠ d := fun he => hgr.not_marked (he ▸ hp)
    exact (hgrows.same (hz.marked hp) hpd).trans (hz.same (hp.isPage h.region) hpd)
  by_cases ht : t.1 = true
  · have hcopied := h.addCopied hgr.not_marked h0 hgrows.region
      (fun hp => hgrows.marked (hz.marked hp)) (hgrows.marked (hgr.marked_iff.mpr (.inr rfl)))
      hsame hrest
    simpa only [if_pos ht, if_neg h0] using hcopied
  · rw [if_neg ht]
    exact h.grow hgrows.region (fun hp => hgrows.marked (hz.marked hp)) hsame hrest

theorem KernelHalf.clone (h : KernelHalf s live) (pdt : ℕ) :
    KernelHalf (mmuClonePdt s pdt).2
      (if (mmuClonePdt s pdt).1 = 0 then live else (mmuClonePdt s pdt).1 :: live) := by
  have hz := allocZeroed_spec h.region
  rw [mmuClonePdt, mmuNewPageDirectory]
  generalize (allocZeroed s).1 = d at *
  generalize (allocZeroed s).2 = s₁ at *
  dsimp only
  by_cases h0 : d = 0
  · rw [if_pos h0]
    exact h.grow hz.region hz.marked (fun hp hp0 => hz.same (hp.isPage h.region) (h0 ▸ hp0)) hz.rest
  have hgr := hz.fresh.resolve_left h0
  have hdir : s₁.bitmap.Marked d := hgr.marked_iff.mpr (.inr rfl)
  have hgrows : Grows d s₁ (tryRange (cloneEntry pdt d) 768 0 s₁).2 :=
    tryRange_preserves (I := Grows d s₁) (fun i s' hi hg => hg.trans
      (cloneEntry_grows hg.region (hg.marked hdir) (by omega))) (Grows.refl d hz.region)
  have hrest := (congrArg (fun x : Mmu => { x with mem := s.mem, bitmap := s.bitmap })
    (clone_rest s₁ pdt d)).trans hz.rest
  rw [if_neg h0]
  exact h.cloned hz hgr h0 hgrows hrest

/-- The search returns `NULL` or the first gap. -/
theorem searchPages_spec {m : Memory} {pdt pages fuel addr a : ℕ} (haddr : addr < word32)
    (h : searchPages m pdt pages fuel addr = some a) : a = 0 ∨
      ∃ n, a = (addr + n * bitmapPageSize) % word32 ∧ rangeUnmapped m pdt a pages = true ∧
        ∀ k < n, rangeUnmapped m pdt ((addr + k * bitmapPageSize) % word32) pages = false := by
  induction fuel generalizing addr with
  | zero => cases h
  | succ fuel ih =>
    rw [searchPages] at h
    split_ifs at h with hlt hgap
    · obtain rfl := Option.some.inj h
      refine .inr ⟨0, ?_, hgap, by simp⟩
      rw [Nat.zero_mul, Nat.add_zero, Nat.mod_eq_of_lt haddr]
    · refine (ih (Nat.mod_lt _ (by decide)) h).imp_right ?_
      rintro ⟨n, hn, hgap', hbelow⟩
      refine ⟨n + 1, hn.trans (nextPage_add addr n), hgap', fun k hk => ?_⟩
      cases k with
      | zero =>
        rw [Nat.zero_mul, Nat.add_zero, Nat.mod_eq_of_lt haddr]
        simpa using hgap
      | succ k =>
        rw [← nextPage_add]
        exact hbelow k (by omega)
    · exact .inl (Option.some.inj h).symm

theorem KernelHalf.alloc (h : KernelHalf s live) {pages a : ℕ} {s' : Mmu}
    (halloc : mmuAllocPages s pages = some (a, s'))
    (hshared : live = [] ∨ (bitmapAllocContiguousPages s.bitmap pages).1 = 0 ∨
      ∀ a, FirstGap s pages a → ∀ i < pages, InSharedTable s ((a + i * bitmapPageSize) % word32)) :
    KernelHalf s' live := by
  obtain ⟨hregion, hmarked⟩ := bitmapAllocContiguousPages_keeps h.region pages
  have hmarks : KernelHalf { s with bitmap := (bitmapAllocContiguousPages s.bitmap pages).2 } live :=
    h.grow hregion (fun hp => hmarked _ hp) (fun _ _ _ _ _ => rfl) rfl
  obtain ⟨start, hsearch, heq⟩ := Option.map_eq_some_iff.mp halloc
  dsimp only at heq
  split_ifs at heq with hnull hfail
  · obtain ⟨-, rfl⟩ := Prod.mk.injEq .. ▸ heq
    exact h
  · obtain ⟨-, rfl⟩ := Prod.mk.injEq .. ▸ heq
    exact hmarks
  · obtain ⟨-, rfl⟩ := Prod.mk.injEq .. ▸ heq
    have hgap := (searchPages_spec h.kernelEnd hsearch).resolve_left hnull
    have hlt : start < word32 := by
      obtain ⟨n, rfl, -⟩ := hgap
      exact Nat.mod_lt _ (by decide)
    have hmap := hmarks.mapPages (bitmapAllocContiguousPages s.bitmap pages).1 pages hlt
      (hshared.imp_right fun hs => hs.resolve_left hfail start hgap)
    convert hmap using 2
    exact h.current

end Operations

/-! ### Boot -/

/-- `mmu_init`: the directory of the kernel with the first 4 MiB, the kernel and the
bitmap mapped, and `kernel_end` rounded up to a page. -/
def mmuInit (s : Mmu) (kernelStartReal kernelEndReal kernelEndAddr : ℕ) (bitmap : BitVec 32)
    (frames : ℕ) : Mmu :=
  let r := mmuNewPageDirectory s
  let s₁ : Mmu := { r.2 with kernelPdt := r.1, currentPdt := r.1 }
  let s₂ := mmuMapPages s₁ r.1 0 0 1024 true false
  let len := (kernelEndReal + word32 - kernelStartReal) % word32 / bitmapPageSize + 1
  let s₃ := mmuMapPages s₂ r.1 kernelStartReal 0xc0100000 len true false
  let s₄ := mmuMapPages s₃ r.1 bitmap.toNat bitmap.toNat frames true false
  let kernelEnd := (kernelEndAddr + 0x1000) % word32
  { s₄ with
    kernelEnd := (if kernelEnd % bitmapPageSize ≠ 0 then
      kernelEnd + (bitmapPageSize - kernelEnd % bitmapPageSize) else kernelEnd) % word32 }

theorem KernelHalf.withEnd {s : Mmu} {live : List ℕ} (h : KernelHalf s live) {a : ℕ}
    (ha : a < word32) : KernelHalf { s with kernelEnd := a } live :=
  ⟨h.region, h.current, ha, h.kernel, h.kernel_pos, h.dir, h.table, h.shared⟩

theorem mmuMapPages_kernelPdt (s : Mmu) (pdt real virt len : ℕ) (rw user : Bool) :
    (mmuMapPages s pdt real virt len rw user).kernelPdt = s.kernelPdt := by
  induction len generalizing s real virt with
  | zero => rfl
  | succ len ih =>
    rw [mmuMapPages, ih, mapPage]
    split_ifs <;> rfl

/-- The kernel starts with no process and a directory of its own. -/
theorem mmuInit_kernelHalf {s : Mmu} (hr : s.bitmap.Region) (h0 : (mmuNewPageDirectory s).1 ≠ 0)
    (hend : s.kernelEnd < word32) (kernelStartReal kernelEndReal kernelEndAddr : ℕ)
    (bitmap : BitVec 32) (frames : ℕ) :
    KernelHalf (mmuInit s kernelStartReal kernelEndReal kernelEndAddr bitmap frames) [] := by
  have hz := allocZeroed_spec hr
  have hgr := hz.fresh.resolve_left h0
  simp only [mmuInit]
  generalize h₁ : ({ (mmuNewPageDirectory s).2 with
    kernelPdt := (mmuNewPageDirectory s).1, currentPdt := (mmuNewPageDirectory s).1 } : Mmu) = s₁
  have hk : s₁.kernelPdt = (mmuNewPageDirectory s).1 := by rw [← h₁]
  have hstart : KernelHalf s₁ [] := by
    rw [← h₁]
    refine ⟨hz.region, rfl, hend, hgr.marked_iff.mpr (.inr rfl), h0, by simp, ?_, by simp⟩
    rintro t ⟨k, hk, hp, -⟩
    have habsent := hz.zero k hk
    rw [mmuNewPageDirectory, habsent] at hp
    cases hp
  have hmap : ∀ {s₂ : Mmu}, KernelHalf s₂ [] → s₂.kernelPdt = (mmuNewPageDirectory s).1 →
      ∀ real virt len, virt < 4294967296 →
        KernelHalf (mmuMapPages s₂ (mmuNewPageDirectory s).1 real virt len true false) [] ∧
        (mmuMapPages s₂ (mmuNewPageDirectory s).1 real virt len true false).kernelPdt =
          (mmuNewPageDirectory s).1 := by
    intro s₂ h hk₂ real virt len hv
    rw [mmuMapPages_kernelPdt, ← hk₂]
    exact ⟨h.mapPages real len hv (.inl rfl), rfl⟩
  obtain ⟨h₂, hk₂⟩ := hmap hstart hk 0 0 1024 (by decide)
  obtain ⟨h₃, hk₃⟩ := hmap h₂ hk₂ kernelStartReal 0xc0100000
    ((kernelEndReal + word32 - kernelStartReal) % word32 / bitmapPageSize + 1) (by decide)
  obtain ⟨h₄, -⟩ := hmap h₃ hk₃ bitmap.toNat _ frames bitmap.isLt
  exact h₄.withEnd (Nat.mod_lt _ (by decide))

/-! ### Runs -/

structure DirState where
  mmu : Mmu
  live : List ℕ

/-- A new directory, a clone of one, and `mmu_alloc_pages`, which is also how the heap
grows. -/
inductive DirOp
  | create (maps : List MapCall)
  | clone (pdt : ℕ)
  | alloc (pages : ℕ)

def dirStep (s : DirState) : DirOp → Option DirState
  | .create maps =>
    let r := createDirectory s.mmu maps
    some ⟨r.2, r.1 :: s.live⟩
  | .clone pdt =>
    let r := mmuClonePdt s.mmu pdt
    if pdt ∈ s.live then some ⟨r.2, if r.1 = 0 then s.live else r.1 :: s.live⟩ else none
  | .alloc pages => (mmuAllocPages s.mmu pages).map fun r => ⟨r.2, s.live⟩

/-- A frame is free when a directory is made, and `mmu_alloc_pages` maps nothing outside
the tables that the processes share. -/
def KeepsShared (s : DirState) : DirOp → Prop
  | .create _ => (bitmapAllocPage s.mmu.bitmap).1 ≠ 0
  | .clone _ => True
  | .alloc pages => s.live = [] ∨ (bitmapAllocContiguousPages s.mmu.bitmap pages).1 = 0 ∨
      ∀ a, FirstGap s.mmu pages a →
        ∀ i < pages, InSharedTable s.mmu ((a + i * bitmapPageSize) % word32)

theorem KernelHalf.step {s s' : DirState} {o : DirOp} (h : KernelHalf s.mmu s.live)
    (hc : KeepsShared s o) (hs : dirStep s o = some s') : KernelHalf s'.mmu s'.live := by
  cases o with
  | create maps =>
    simp only [dirStep, Option.some.injEq] at hs
    subst hs
    have h0 : (mmuNewPageDirectory s.mmu).1 ≠ 0 := hc
    have hstep := h.create maps h0
    generalize createDirectory s.mmu maps = r at hstep ⊢
    exact hstep
  | clone pdt =>
    by_cases hlive : pdt ∈ s.live
    · simp only [dirStep, if_pos hlive, Option.some.injEq] at hs
      subst hs
      exact h.clone pdt
    · rw [dirStep, if_neg hlive] at hs
      cases hs
  | alloc pages =>
    obtain ⟨⟨a, m⟩, hm, rfl⟩ := Option.map_eq_some_iff.mp hs
    exact h.alloc hm hc

/-- In every state of a run the processes have the upper entries of `kernel_pdt`, and
the addresses of the kernel mean the same in all of them. -/
theorem kernel_half_shared {m : Mmu} {os : List DirOp} {s : DirState} (hboot : KernelHalf m [])
    (hrun : Run dirStep KeepsShared ⟨m, []⟩ os s) : ∀ d ∈ s.live,
      (∀ i, 768 ≤ i → i < 1024 →
        entryAt s.mmu.mem (d + 4 * i) = entryAt s.mmu.mem (s.mmu.kernelPdt + 4 * i)) ∧
      ∀ v, 0xc0000000 ≤ v → v < word32 →
        pageOf s.mmu.mem d v = pageOf s.mmu.mem s.mmu.kernelPdt v := by
  have h : KernelHalf s.mmu s.live :=
    hrun.invariant (I := fun s => KernelHalf s.mmu s.live) (fun _ _ _ hI hc hs => hI.step hc hs) hboot
  intro d hd
  refine ⟨h.shared d hd, fun v hv hv' => ?_⟩
  have hi : 768 ≤ pdIndex v ∧ pdIndex v < 1024 := by
    rw [word32] at hv'
    rw [pdIndex]
    omega
  rw [pageOf, pageOf, h.shared d hd _ hi.1 hi.2]

/-! ### A kernel without room in its tables -/

/-- A directory at `0x420000` with one table, for `0xc0000000`, and `kernel_end` behind
what the table covers. -/
def bootedMmu : Mmu where
  mem := setEntry (fun _ => 0) (0x420000 + 4 * 768) ⟨true, true, false, 0, 0x421⟩
  bitmap := ⟨0x400000, 64, fun i => if i = 0 then 0xFFFFFFFF#32 else 3#32⟩
  kernelEnd := 0xc0400000
  kernelPdt := 0x420000
  currentPdt := 0x420000

theorem bootedMmu_kernelHalf : KernelHalf bootedMmu [] := by
  have hdir : IsPage 0x420000 := ⟨by decide, by decide⟩
  refine ⟨⟨by decide, by decide⟩, rfl, by decide, ⟨32, by decide, by decide, by decide⟩, by decide,
    by simp, ?_, by simp⟩
  rintro t ⟨k, hk, hp, rfl⟩
  obtain rfl : k = 768 := by
    by_contra hne
    have habsent := (congrArg PageEntry.present (entryAt_setEntry_ne (m := fun _ => 0)
      (e := ⟨true, true, false, 0, 0x421⟩) hdir (by decide) hk (Ne.symm hne))).trans
      (entryAt_of_zero hdir hk fun _ _ _ => rfl)
    rw [bootedMmu, habsent] at hp
    cases hp
  have hframe : (entryAt bootedMmu.mem (bootedMmu.kernelPdt + 4 * 768)).frame = 0x421000 :=
    congrArg PageEntry.frame (entryAt_setEntry_self (m := fun _ => 0) hdir (by decide))
  rw [hframe]
  exact ⟨.inr ⟨33, by decide, by decide, by decide⟩, by decide, by simp⟩

/-- The heap grows by a page before the first process is made. -/
theorem kernel_half_shared_of_alloc_first : ∃ s,
    Run dirStep KeepsShared ⟨bootedMmu, []⟩ [.alloc 1, .create []] s ∧
    ∃ d ∈ s.live, ∀ v, 0xc0000000 ≤ v → v < word32 →
      pageOf s.mmu.mem d v = pageOf s.mmu.mem s.mmu.kernelPdt v := by
  have halloc : (mmuAllocPages bootedMmu 1).isSome := by decide +kernel
  obtain ⟨r, hr⟩ := Option.isSome_iff_exists.mp halloc
  have hfree : (bitmapAllocPage r.2.bitmap).1 ≠ 0 := by
    have hsome : ((mmuAllocPages bootedMmu 1).map fun r => (bitmapAllocPage r.2.bitmap).1) =
        some 0x424000 := by decide +kernel
    rw [hr, Option.map_some] at hsome
    rw [Option.some.inj hsome]
    decide
  have hgrow : dirStep ⟨bootedMmu, []⟩ (.alloc 1) = some ⟨r.2, []⟩ := by
    rw [dirStep, hr, Option.map_some]
  have hcreate : dirStep ⟨r.2, []⟩ (.create []) =
      some ⟨(createDirectory r.2 []).2, [(createDirectory r.2 []).1]⟩ := by
    rw [dirStep]
  have hfirst : KeepsShared ⟨bootedMmu, []⟩ (.alloc 1) := .inl rfl
  have hsecond : KeepsShared ⟨r.2, []⟩ (.create []) := hfree
  have hrun := Run.cons hfirst hgrow (.single hsecond hcreate)
  generalize createDirectory r.2 [] = c at hrun
  have hlive : c.1 ∈ [c.1] := List.mem_singleton_self _
  exact ⟨_, hrun, c.1, hlive, (kernel_half_shared bootedMmu_kernelHalf hrun c.1 hlive).2⟩

/-- The heap grows by a page after the process was made: the new table is in
`kernel_pdt` only. -/
theorem kernel_half_split_of_alloc_later : KernelHalf bootedMmu [] ∧ ∃ s,
    Run dirStep Anything ⟨bootedMmu, []⟩ [.create [], .alloc 1] s ∧
    ∃ d ∈ s.live, (entryAt s.mmu.mem (d + 4 * 769)).present = false ∧
      (entryAt s.mmu.mem (s.mmu.kernelPdt + 4 * 769)).present = true := by
  refine ⟨bootedMmu_kernelHalf, ?_⟩
  generalize hc : createDirectory bootedMmu [] = c
  have halloc : ((mmuAllocPages (createDirectory bootedMmu []).2 1).map fun r =>
      ((entryAt r.2.mem ((createDirectory bootedMmu []).1 + 4 * 769)).present,
        (entryAt r.2.mem (r.2.kernelPdt + 4 * 769)).present)) = some (false, true) := by
    decide +kernel
  rw [hc] at halloc
  obtain ⟨r, hr, hpresent⟩ := Option.map_eq_some_iff.mp halloc
  obtain ⟨hd, hk⟩ := Prod.mk.injEq .. ▸ hpresent
  have hcreate : dirStep ⟨bootedMmu, []⟩ (.create []) = some ⟨c.2, [c.1]⟩ := by
    rw [dirStep, hc]
  have hgrow : dirStep ⟨c.2, [c.1]⟩ (.alloc 1) = some ⟨r.2, [c.1]⟩ := by
    rw [dirStep, hr, Option.map_some]
  exact ⟨⟨r.2, [c.1]⟩, .cons trivial hcreate (.single trivial hgrow), c.1,
    List.mem_singleton_self _, hd, hk⟩

end DosKernel
