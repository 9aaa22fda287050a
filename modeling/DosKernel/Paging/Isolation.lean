import DosKernel.Paging.Progress

/-! The user half of two address spaces. A write through one directory goes to a
page that this directory maps; it cannot be seen through another one that has no
frame in common with these pages. A clone and its source are such a pair. -/

namespace DosKernel

open Lib

/-- A write of one, two or four bytes to user memory inside one page. -/
structure UserWrite (n v : ℕ) : Prop where
  size : n = 1 ∨ n = 2 ∨ n = 4
  user : v < 0xc0000000
  inside : pageOffset v + n ≤ 4096

section View
variable {m m' : Memory} {pdt pdt' v n p : ℕ} {e : PageEntry}

theorem isMappedPage_of_pageOf (h : pageOf m pdt v = some e) (hv : v < 0xc0000000) :
    IsMappedPage m pdt 768 e.frame := by
  obtain ⟨h1, h2, h3⟩ := pageOf_eq_some.mp h
  have hi : pdIndex v < 768 := by rw [pdIndex]; omega
  have hj : ptIndex v < 1024 := by rw [ptIndex]; omega
  exact ⟨pdIndex v, hi, h1, ptIndex v, hj, by rw [h3]; exact h2, by rw [h3]⟩

theorem mmuRead_one (m : Memory) (pdt v : ℕ) : mmuReadb m pdt v =
    (pageOf m pdt v).elim 0 fun e => (m (e.frame + pageOffset v)).toNat := by
  rw [mmuReadb, mmuRead]
  congr 1
  funext e
  have h1 := e.isPage_frame.aligned
  have h2 := e.isPage_frame.top
  have h3 : e.frame + pageOffset v < space := by rw [pageOffset, space]; omega
  rw [Memory.load, Memory.load, Nat.mod_eq_of_lt h3, Nat.mul_zero, Nat.add_zero]

/-- The two memories agree on the directory, its user tables and their pages. -/
structure SameUser (m m' : Memory) (pdt : ℕ) : Prop where
  dir : SamePage m m' pdt
  table : ∀ t, IsTable m' pdt 768 t → SamePage m m' t
  page : ∀ q, IsMappedPage m' pdt 768 q → SamePage m m' q

theorem SameUser.pageOf_eq (h : SameUser m m' pdt) (hd : IsPage pdt) (hv : v < 0xc0000000) :
    pageOf m pdt v = pageOf m' pdt v := by
  refine (pageOf_congr hd (by omega) h.dir.symm fun hp => ?_).symm
  exact (h.table _ ⟨pdIndex v, by rw [pdIndex]; omega, hp, rfl⟩).symm

theorem SameUser.readb_eq (h : SameUser m m' pdt) (hd : IsPage pdt) (hv : v < 0xc0000000) :
    mmuReadb m pdt v = mmuReadb m' pdt v := by
  rw [mmuRead_one, mmuRead_one, h.pageOf_eq hd hv]
  rcases he : pageOf m' pdt v with _ | e
  · rfl
  · have hoff : pageOffset v < 4096 := by rw [pageOffset]; omega
    simp only [Option.elim_some]
    rw [h.page _ (isMappedPage_of_pageOf he hv) _ (by omega) (by omega)]

/-- A user write changes one page that the directory maps. -/
theorem samePage_mmuWrite (hw : UserWrite n v) (hp : IsPage p) (data : ℕ)
    (hout : ¬ IsMappedPage m pdt 768 p) : SamePage (mmuWrite n m pdt v data) m p := by
  rw [mmuWrite]
  rcases he : pageOf m pdt v with _ | e
  · exact fun _ _ _ => rfl
  · have hpage := isMappedPage_of_pageOf he hw.user
    have hin := hw.inside
    rw [Option.elim_some, Memory.store]
    exact samePage_write e.isPage_frame (Nat.le_add_right _ _) (by omega) hp
      fun h => hout (h ▸ hpage)

end View

/-! ### Two directories -/

/-- No page that `d` maps is a frame of `d'`: its directory, a user table or a page. -/
def NoShare (m : Memory) (d d' : ℕ) : Prop :=
  ∀ q, IsMappedPage m d 768 q → q ≠ d' ∧ ¬ IsTable m d' 768 q ∧ ¬ IsMappedPage m d' 768 q

/-- The directory does not map itself or one of its user tables. -/
def NoSelf (m : Memory) (d : ℕ) : Prop :=
  ∀ q, IsMappedPage m d 768 q → q ≠ d ∧ ¬ IsTable m d 768 q

section Two
variable {m : Memory} {d d' n v : ℕ}

theorem NoShare.sameUser (h : NoShare m d d') (hd' : IsPage d') (hw : UserWrite n v) (data : ℕ) :
    SameUser (mmuWrite n m d v data) m d' := by
  refine ⟨?_, fun t ht => ?_, fun q hq => ?_⟩
  · exact samePage_mmuWrite hw hd' data fun hm => (h _ hm).1 rfl
  · exact samePage_mmuWrite hw (isPage_of_isTable ht) data fun hm => (h _ hm).2.1 ht
  · exact samePage_mmuWrite hw (isPage_of_isMappedPage hq) data fun hm => (h _ hm).2.2 hq

/-- The tables of a directory that does not map itself are the same after a
write through it or through a directory that shares nothing with it. -/
theorem tables_of_samePages {m' : Memory} (hd : IsPage d) (hdir : SamePage m' m d)
    (ht : ∀ t, IsTable m d 768 t → SamePage m' m t) :
    (∀ t, IsTable m' d 768 t ↔ IsTable m d 768 t) ∧
      ∀ q, IsMappedPage m' d 768 q ↔ IsMappedPage m d 768 q := by
  have he : ∀ k < 768, entryAt m' (d + 4 * k) = entryAt m (d + 4 * k) :=
    fun k hk => entryAt_congr hd (by omega) hdir
  exact ⟨fun _ => isTable_congr he, fun q => isMappedPage_congr he ht⟩

theorem NoSelf.tables (h : NoSelf m d) (hd : IsPage d) (hw : UserWrite n v) (data : ℕ) :
    (∀ t, IsTable (mmuWrite n m d v data) d 768 t ↔ IsTable m d 768 t) ∧
      ∀ q, IsMappedPage (mmuWrite n m d v data) d 768 q ↔ IsMappedPage m d 768 q :=
  tables_of_samePages hd (samePage_mmuWrite hw hd data fun hm => (h _ hm).1 rfl)
    fun _ ht => samePage_mmuWrite hw (isPage_of_isTable ht) data fun hm => (h _ hm).2 ht

/-- Nothing is shared, in either direction. -/
structure Isolated (m : Memory) (d d' : ℕ) : Prop where
  left : IsPage d
  right : IsPage d'
  share : NoShare m d d'
  share' : NoShare m d' d

theorem Isolated.symm (h : Isolated m d d') : Isolated m d' d := ⟨h.right, h.left, h.share', h.share⟩

/-- Isolation is kept by a write when neither directory maps itself. -/
theorem Isolated.write (h : Isolated m d d') (hs : NoSelf m d) (hs' : NoSelf m d')
    (hw : UserWrite n v) (data : ℕ) : Isolated (mmuWrite n m d v data) d d' ∧
      NoSelf (mmuWrite n m d v data) d ∧ NoSelf (mmuWrite n m d v data) d' := by
  obtain ⟨ht, hp⟩ := hs.tables h.left hw data
  have hsame := h.share.sameUser h.right hw data
  obtain ⟨ht', hp'⟩ := tables_of_samePages h.right hsame.dir hsame.table
  refine ⟨⟨h.left, h.right, fun q hq => ?_, fun q hq => ?_⟩, fun q hq => ?_, fun q hq => ?_⟩
  · rw [ht', hp']
    exact h.share q ((hp q).mp hq)
  · rw [ht, hp]
    exact h.share' q ((hp' q).mp hq)
  · rw [ht]
    exact hs q ((hp q).mp hq)
  · rw [ht']
    exact hs' q ((hp' q).mp hq)

/-- A write through one of the two directories. -/
structure Write where
  right : Bool
  size : ℕ
  addr : ℕ
  data : ℕ

def Write.perform (d d' : ℕ) (m : Memory) (w : Write) : Memory :=
  mmuWrite w.size m (if w.right then d' else d) w.addr w.data

theorem Isolated.writes (ws : List Write) (hws : ∀ w ∈ ws, UserWrite w.size w.addr) {m : Memory}
    (h : Isolated m d d') (hs : NoSelf m d) (hs' : NoSelf m d') :
    Isolated (ws.foldl (Write.perform d d') m) d d' := by
  induction ws generalizing m with
  | nil => exact h
  | cons w ws ih =>
    have hw := hws w List.mem_cons_self
    have hrest := fun x hx => hws x (List.mem_cons_of_mem w hx)
    rw [List.foldl_cons, Write.perform]
    split_ifs
    · obtain ⟨h1, h2, h3⟩ := h.symm.write hs' hs hw w.data
      exact ih hrest h1.symm h3 h2
    · obtain ⟨h1, h2, h3⟩ := h.write hs hs' hw w.data
      exact ih hrest h1 h2 h3

end Two

/-! ### A clone and its source -/

namespace Cloned

variable {s₀ s : Mmu} {pdt newPdt v : ℕ}

theorem sameUser (h : Cloned s₀ s pdt newPdt) (hu : UserMarked s₀ pdt) :
    SameUser s.mem s₀.mem pdt := by
  have hsame : ∀ {p}, s₀.bitmap.Marked p → SamePage s.mem s₀.mem p :=
    fun hp => h.grows.same hp fun he => h.fresh (he ▸ hp)
  exact ⟨hsame hu.dir, fun t ht => hsame (hu.table ht), fun q hq => hsame (hu.page hq)⟩

/-- The walk of a user address in the clone and in the source. -/
theorem pageOf_cases (h : Cloned s₀ s pdt newPdt) (hv : v < 0xc0000000) :
    (pageOf s₀.mem pdt v = none ∧ pageOf s.mem newPdt v = none) ∨
    ∃ e q, IsPage q ∧ pageOf s₀.mem pdt v = some e ∧
      pageOf s.mem newPdt v = some (e.withFrame q) ∧
      ∀ x < 4096, s.mem (q + x) = s₀.mem (e.frame + x) := by
  have hi : pdIndex v < 768 := by rw [pdIndex]; omega
  have hj : ptIndex v < 1024 := by rw [ptIndex]; omega
  have hen := h.entry _ hi
  by_cases hpres : (entryAt s₀.mem (pdt + 4 * pdIndex v)).present = true
  · obtain ⟨t, ht, -, -, -, hentry, hpages⟩ := hen.copied hpres
    have hpresent : (entryAt s.mem (newPdt + 4 * pdIndex v)).present = true := by
      rw [hentry]; exact hpres
    have hframe : (entryAt s.mem (newPdt + 4 * pdIndex v)).frame = t := by
      rw [hentry, PageEntry.frame_withFrame _ ht]
    simp only [pageOf, hpres, hpresent, hframe, if_true]
    by_cases hpj : (entryAt s₀.mem ((entryAt s₀.mem (pdt + 4 * pdIndex v)).frame +
        4 * ptIndex v)).present = true
    · obtain ⟨q, hq, -, -, hej, hbytes⟩ := (hpages _ hj).copied hpj
      refine Or.inr ⟨_, q, hq, if_pos hpj, ?_, hbytes⟩
      rw [hej]
      exact if_pos hpj
    · have habs := (hpages _ hj).absent (by simpa using hpj)
      exact Or.inl ⟨if_neg hpj, if_neg (by rw [habs]; simp)⟩
  · have habs := hen.absent (by simpa using hpres)
    simp only [pageOf, hpres, habs]
    exact Or.inl ⟨rfl, rfl⟩

theorem readb_eq (h : Cloned s₀ s pdt newPdt) (hv : v < 0xc0000000) :
    mmuReadb s.mem newPdt v = mmuReadb s₀.mem pdt v := by
  rw [mmuRead_one, mmuRead_one]
  rcases h.pageOf_cases hv with ⟨h1, h2⟩ | ⟨e, q, hq, h1, h2, hbytes⟩
  · rw [h1, h2]
    rfl
  · have hoff : pageOffset v < 4096 := by rw [pageOffset]; omega
    rw [h1, h2, Option.elim_some, Option.elim_some, PageEntry.frame_withFrame e hq, hbytes _ hoff]

theorem noSelf (h : Cloned s₀ s pdt newPdt) : NoSelf s.mem newPdt :=
  fun _ hq => ⟨(h.page_fresh hq).2.1, h.apart hq⟩

end Cloned

def PageEntry.bits (e : PageEntry) : Bool × Bool × Bool := (e.present, e.rw, e.user)

def userEntry (p : ℕ) : PageEntry := ⟨true, true, true, 0, BitVec.ofNat 20 (p / 4096)⟩

def oneTableBitmap : Bitmap := ⟨0x400000, 64, fun i => if i = 0 then 0xFFFFFFFF#32 else 7#32⟩

/-- A directory at `0x420000` with one table, which maps the page 0 to `p`. -/
def oneTableMmu (p : ℕ) : Mmu :=
  { mem := setEntry (setEntry (fun x => if x = 0x422010 then 7 else 0) 0x420000
      (userEntry 0x421000)) 0x421000 (userEntry p)
    bitmap := oneTableBitmap
    kernelEnd := 0xc0400000
    kernelPdt := 0x420000
    currentPdt := 0x420000 }

def onePageMmu : Mmu := oneTableMmu 0x422000

section OneTable
variable {p q k : ℕ}

end OneTable

section Remapped
variable {s₀ s : Mmu} {pdt newPdt t q : ℕ} {e : PageEntry}

end Remapped

end DosKernel
