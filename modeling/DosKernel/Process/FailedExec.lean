import DosKernel.Process.Exec
import DosKernel.Process.FailedFork

/-! What an `execve` that fails leaves behind. `readdir` copies the inode of every entry that
it finds and nobody frees the copy; the buffer of the file is given back only when it could
not be read, and then only if `malloc_align` moved its pointer by less than a cell. -/

namespace DosKernel

open Lib Vfs

/-! ### Live allocations -/

section Live
variable {h : Heap} {live held : List Alloc} {a : Alloc} {addr d q x : ℕ} {hb : HeapBlock}

theorem heapFreeBlock_frame (hb : HeapBlock) (addr : ℕ) : heapFreeBlock hb addr =
    { hb with marks := (heapFreeBlock hb addr).marks, used := (heapFreeBlock hb addr).used } := by
  rw [heapFreeBlock]

theorem heapFree_owns (h : Heap) (addr q : ℕ) :
    (heapFree h addr).2.any (·.owns q) = h.any (·.owns q) := by
  induction h with
  | nil => rfl
  | cons hb h ih =>
    rw [heapFree]
    split_ifs
    · rw [heapFreeBlock_frame, List.any_cons, List.any_cons]
      simp only [HeapBlock.owns]
    · rw [List.any_cons, List.any_cons, ih]

/-- The marks in front of the freed address stay. -/
theorem heapFreeBlock_before (hmade : hb.Made) (howns : hb.owns q = true) (hq : hb.cell x + 16 ≤ q) :
    (heapFreeBlock hb q).marks x = hb.marks x := by
  have hcell := hmade.cell_eq x
  have hmod := Nat.mod_le (hb.base + sizeofHeapBlock + hb.size) word32
  have htop := hmade.top
  rw [HeapBlock.owns, Bool.and_eq_true, decide_eq_true_eq, decide_eq_true_eq] at howns
  rw [heapFreeBlock, hmade.blockSize_eq]
  dsimp only
  rw [setRange_of_not_mem]
  intro hin
  simp only [sizeofHeapBlock, word32] at *
  omega

theorem heapFree_before (hmem : hb ∈ h) (hmade : hb.Made) (hq : hb.cell x + 16 ≤ q) :
    ∃ hb' ∈ (heapFree h q).2, hb' = { hb with marks := hb'.marks, used := hb'.used } ∧
      hb'.marks x = hb.marks x := by
  induction h with
  | nil => cases hmem
  | cons k h ih =>
    rw [heapFree]
    rcases List.mem_cons.mp hmem with rfl | hrest
    · split_ifs with howns
      · exact ⟨_, List.mem_cons_self, heapFreeBlock_frame hb q, heapFreeBlock_before hmade howns hq⟩
      · exact ⟨hb, List.mem_cons_self, rfl, rfl⟩
    · split_ifs
      · exact ⟨hb, List.mem_cons_of_mem _ hrest, rfl, rfl⟩
      · obtain ⟨hb', hmem', hframe⟩ := ih hrest
        exact ⟨hb', List.mem_cons_of_mem k hmem', hframe⟩

theorem HeapMarks.not_live (hm : HeapMarks ⟨h, held⟩) (ha : a ∈ held) (hmem : hb ∈ h)
    (hx : hb.Holds a x) (hapart : ∀ c ∈ live, a.Disjoint c) {h' : Heap} {hb' : HeapBlock}
    (hmem' : hb' ∈ h') (hframe : hb' = { hb with marks := hb'.marks, used := hb'.used })
    (hmark : hb'.marks x = hb.marks x) : ¬ HeapMarks ⟨h', live⟩ := by
  intro hm'
  have hmade := hm.made hb hmem
  have hpos := hx.cells_pos
  have hin := hx.inside
  have hbehind := hx.behind
  have hne := hm.marks_ne hmem ha hx le_rfl (by omega)
  have hmarked := hm'.marked hb' hmem' x (by rw [hframe]; exact lt_of_lt_of_le (by omega) hin)
  rw [hmark] at hmarked
  rcases hmarked.mp hne with hlt | ⟨c, hc, hcov⟩
  · rw [hframe] at hlt
    exact absurd hlt (Nat.not_lt.mpr hbehind)
  · rw [hframe] at hcov
    exact hapart c hc _ ((hx.covers hmade).mpr ⟨le_rfl, by omega⟩) hcov

/-- The heap tells the live allocations from more than these. -/
theorem HeapMarks.nothing_left (hm : HeapMarks ⟨h, held ++ live⟩) (hm' : HeapMarks ⟨h, live⟩) :
    held = [] := by
  refine List.eq_nil_iff_forall_not_mem.mpr fun a ha => ?_
  have hmem := List.mem_append_left live ha
  obtain ⟨hb, hmem', x, hx⟩ := hm.placed a hmem
  exact hm.not_live hmem hmem' hx ((List.pairwise_append.mp hm.disjoint).2.2 a ha) hmem' rfl rfl hm'

theorem HeapMarks.heap_ne (hm : HeapMarks ⟨h, live⟩) (hlive : live ≠ []) : h ≠ [] := by
  rintro rfl
  obtain ⟨a, ha⟩ := List.exists_mem_of_ne_nil live hlive
  obtain ⟨hb, hmem, -⟩ := hm.placed a ha
  cases hmem

theorem HeapMarks.perm (hm : HeapMarks ⟨h, held⟩) (hperm : held.Perm live) : HeapMarks ⟨h, live⟩ := by
  refine ⟨hm.made, hm.apart, fun a ha => hm.placed a (hperm.mem_iff.mpr ha),
    (hperm.pairwise_iff fun h => h.symm).mp hm.disjoint, fun hb hmem i hi => ?_, hm.used⟩
  simpa only [hperm.mem_iff] using hm.marked hb hmem i hi

/-- `heap_free` of an address in the first cell of an allocation. -/
theorem HeapMarks.free_first (hm : HeapMarks ⟨h, a :: live⟩) (hd : d < 16)
    (howns : h.any (·.owns a.ptr) = true) : HeapMarks ⟨(heapFree h (a.ptr + d)).2, live⟩ := by
  obtain ⟨hb, hmem, x, hx⟩ := hm.placed a List.mem_cons_self
  obtain ⟨l, r, rfl⟩ := List.append_of_mem hmem
  have hmade := hm.made hb hmem
  have hpos := hx.cells_pos
  have hlt : hb.base + sizeofHeapBlock + hb.size < word32 := by
    have hiff := hx.any_owns_iff hm (d := 0) (by omega)
    rw [Nat.add_zero, ← List.any_eq_true] at hiff
    exact hiff.mp howns
  have hother : ∀ e < 16, ∀ k ∈ l, k.owns (a.ptr + e) = false := fun e he k hk => by
    obtain ⟨h1, h2⟩ := hx.bounds hmade (d := e) (by omega)
    exact (apart_of_mem hm.apart (.inl hk)).not_owns h1 h2
  have hown : ∀ e < 16, hb.owns (a.ptr + e) = true := fun e he =>
    (hx.owns_iff hmade (by omega)).mpr hlt
  have hused := hm.cells_le_used hmem List.mem_cons_self hx
  have hbound := hm.used_le hmem
  have hsame : heapFreeBlock hb (a.ptr + d) = heapFreeBlock hb a.ptr := by
    have hzero := heapFreeBlock_at (d := 0) hmade hx (by omega) hused hbound
    rw [Nat.add_zero] at hzero
    rw [heapFreeBlock_at hmade hx (by omega) hused hbound, hzero, Nat.div_eq_of_lt hd]
  obtain ⟨hremark, hcount⟩ := heapFreeBlock_spec hmade hx hused hbound
  have hfree := hm.free rfl List.mem_cons_self hx hremark hcount
  rw [List.erase_cons_head] at hfree
  rw [heapFree_append (hother d hd) (hown d hd), hsame]
  exact hfree

/-- `heap_free` of an allocation and of an address behind its first cell: it is gone exactly if
it was the first cell and `heap_free` found the block. -/
theorem HeapMarks.free_live_iff (hm : HeapMarks ⟨h, held ++ a :: live⟩) :
    HeapMarks ⟨(heapFree h (a.ptr + d)).2, live⟩ ↔
      held = [] ∧ d < 16 ∧ h.any (·.owns a.ptr) = true := by
  constructor
  · intro hlive
    have ha : a ∈ held ++ a :: live := List.mem_append_right held List.mem_cons_self
    have hapart : ∀ c ∈ live, a.Disjoint c :=
      (List.pairwise_cons.mp (List.pairwise_append.mp hm.disjoint).2.1).1
    obtain ⟨hb, hmem, x, hx⟩ := hm.placed a ha
    have hd : d < 16 := by
      by_contra hge
      obtain ⟨hb', hmem', hframe, hmark⟩ := heapFree_before (x := x) (q := a.ptr + d) hmem
        (hm.made hb hmem) (by rw [hx.ptr_eq]; omega)
      exact hm.not_live ha hmem hx hapart hmem' hframe hmark hlive
    have hown : h.any (·.owns a.ptr) = true := by
      by_contra hnone
      have hsame : heapFree h (a.ptr + d) = (false, h) := by
        refine heapFree_none fun k hk => ?_
        obtain ⟨l, r, rfl⟩ := List.append_of_mem hmem
        have hpos := hx.cells_pos
        have hiff := hx.any_owns_iff hm (d := 0) (by omega)
        rw [Nat.add_zero, ← List.any_eq_true] at hiff
        have hiff' := hx.any_owns_iff hm (d := d) (by omega)
        by_contra howns
        rw [Bool.not_eq_false] at howns
        exact hnone (hiff.mpr (hiff'.mp ⟨k, hk, howns⟩))
      rw [hsame] at hlive
      exact hm.not_live ha hmem hx hapart hmem rfl rfl hlive
    have hperm : (held ++ a :: live).Perm (a :: (held ++ live)) := List.perm_middle
    exact ⟨((hm.perm hperm).free_first hd hown).nothing_left hlive, hd, hown⟩
  · rintro ⟨rfl, hd, hown⟩
    exact hm.free_first hd hown

/-- An allocation that `heap_free` does not find stays. -/
theorem HeapMarks.free_any (hm : HeapMarks ⟨h, held ++ a :: live⟩) :
    ∃ left, HeapMarks ⟨(heapFree h a.ptr).2, left ++ live⟩ ∧
      (left = [] ↔ held = [] ∧ h.any (·.owns a.ptr) = true) := by
  have hfront : HeapMarks ⟨h, a :: (held ++ live)⟩ := hm.perm List.perm_middle
  cases hown : h.any (·.owns a.ptr) with
  | true =>
    have hfree := hfront.free_first (d := 0) (by decide) hown
    rw [Nat.add_zero] at hfree
    exact ⟨held, hfree, by simp⟩
  | false =>
    rw [List.any_eq_false] at hown
    rw [heapFree_none (by simpa using hown)]
    refine ⟨held ++ [a], ?_, by simp⟩
    rw [List.append_assoc]
    exact hm

end Live

/-! ### What no later step takes back -/

def SameFrames (k k' : Kernel) : Prop := ∀ g, k'.mmu.bitmap.bit g = k.mmu.bitmap.bit g

/-- Frames are only taken, a heap that is lost stays lost, and the processes are as they were. -/
structure Onward (k k' : Kernel) : Prop where
  procs : k'.procs = k.procs
  below : k.mmu.bitmap.Below k'.mmu.bitmap
  lost : SameFrames k k' → k.heap = [] → k'.heap = []

/-- Besides, allocations are only added, in the blocks that there are, as long as the heap has
room for them. -/
structure Adds (k k' : Kernel) : Prop extends Onward k k' where
  heap : SameFrames k k' → k'.heap ≠ [] → ∀ live, HeapMarks ⟨k.heap, live⟩ →
    (∃ left, HeapMarks ⟨k'.heap, left ++ live⟩) ∧
      ∀ addr, k'.heap.any (·.owns addr) = k.heap.any (·.owns addr)

section States
variable {k k' k₁ : Kernel} {live : List Alloc} {size q p : ℕ}

theorem Onward.refl (k : Kernel) : Onward k k := ⟨rfl, .refl _, fun _ h => h⟩

/-- Frames that are the same at the end were the same on the way. -/
theorem Onward.between (h : Onward k k₁) (h' : Onward k₁ k') (hsame : SameFrames k k') :
    SameFrames k k₁ ∧ SameFrames k₁ k' := by
  have hfirst : SameFrames k k₁ := by
    intro g
    have hup := h.below g
    have hdown := h'.below g
    rw [hsame g] at hdown
    rw [Bool.eq_iff_iff]
    exact ⟨hdown, hup⟩
  exact ⟨hfirst, fun g => (hsame g).trans (hfirst g).symm⟩

theorem Onward.trans (h : Onward k k₁) (h' : Onward k₁ k') : Onward k k' := by
  refine ⟨h'.procs.trans h.procs, h.below.trans h'.below, fun hsame hnil => ?_⟩
  obtain ⟨h1, h2⟩ := h.between h' hsame
  exact h'.lost h2 (h.lost h1 hnil)

/-- A heap that is there at the end was there on the way. -/
theorem Onward.heap_ne (h' : Onward k₁ k') (hsame : SameFrames k₁ k') (hne : k'.heap ≠ []) :
    k₁.heap ≠ [] := fun hnil => hne (h'.lost hsame hnil)

theorem Adds.refl (k : Kernel) : Adds k k :=
  ⟨.refl k, fun _ _ _ hm => ⟨⟨[], hm⟩, fun _ => rfl⟩⟩

theorem Adds.trans (h : Adds k k₁) (h' : Adds k₁ k') : Adds k k' := by
  refine ⟨h.toOnward.trans h'.toOnward, fun hsame hne live hm => ?_⟩
  obtain ⟨h1, h2⟩ := h.between h'.toOnward hsame
  obtain ⟨⟨left, hleft⟩, howns⟩ := h.heap h1 (h'.heap_ne h2 hne) live hm
  obtain ⟨⟨more, hmore⟩, howns'⟩ := h'.heap h2 hne _ hleft
  refine ⟨⟨more ++ left, ?_⟩, fun addr => (howns' addr).trans (howns addr)⟩
  rw [List.append_assoc]
  exact hmore

/-- Pages that were allocated are frames that were not taken before. -/
theorem mmuAllocPages_takes {s s' : Mmu} {pages a : ℕ} (hpages : 1 ≤ pages)
    (h : mmuAllocPages s pages = some (a, s')) (ha : a ≠ 0) :
    ∃ g, s.bitmap.bit g = false ∧ s'.bitmap.bit g = true := by
  obtain ⟨start, -, heq⟩ := Option.map_eq_some_iff.mp h
  dsimp only at heq
  split_ifs at heq with h0 hnone
  · exact absurd (Prod.mk.inj heq).1.symm ha
  · exact absurd (Prod.mk.inj heq).1.symm ha
  · obtain ⟨-, rfl⟩ := Prod.mk.inj heq
    rcases bitmapAllocContiguousPages_spec s.bitmap hpages with ⟨he, -⟩ | ⟨f, b', he, hfree, hm, -⟩
    · exact absurd (congrArg Prod.fst he) hnone
    · rw [he]
      refine ⟨f, (hfree f le_rfl (by omega)).2, ?_⟩
      refine mmuMapPages_below (.refl b') _ _ _ _ _ _ f ?_
      rw [hm.bit_eq]
      simp only [Bool.or_eq_true, decide_eq_true_eq]
      omega

/-- A block at `NULL` loses the heap, and one anywhere else takes frames. -/
theorem grown_cases {pages a : ℕ} {m : Mmu} {rest h : Heap}
    (hpages : growPages (max size minMallocSize) 4 256 = pages)
    (halloc : mmuAllocPages k.mmu pages = some (a, m))
    (hblock : heapAddBlock rest a (pages * bitmapPageSize) 16 = h) :
    h = [] ∨ ¬ ∀ g, m.bitmap.bit g = k.mmu.bitmap.bit g := by
  by_cases ha : a = 0
  · refine .inl ?_
    rw [← hblock, heapAddBlock, if_pos ha]
  · refine .inr fun hsame => ?_
    have hle := le_growPages (max size minMallocSize) 4 256
    obtain ⟨g, hclear, hset⟩ := mmuAllocPages_takes (by omega) halloc ha
    rw [hsame g, hclear] at hset
    cases hset

theorem malloc_onward (h : malloc k size = some (q, k')) : Onward k k' := by
  refine ⟨?_, malloc_below h, fun hsame hnil => ?_⟩
  · rw [← malloc_frame h]
  cases malloc_cases h with
  | nothing => exact hnil
  | found _ hroom => rw [hnil] at hroom; exact absurd rfl hroom
  | large => rw [hnil]; rfl
  | grown _ _ hpages _ halloc hblock =>
    rcases grown_cases hpages halloc hblock with rfl | hne
    · rfl
    · exact absurd hsame hne

/-- `malloc` that neither takes frames nor loses the heap: a new allocation or none. -/
theorem malloc_kept (h : malloc k size = some (q, k')) (hsame : SameFrames k k')
    (hne : k'.heap ≠ []) (hm : HeapMarks ⟨k.heap, live⟩) :
    (q = 0 ∧ HeapMarks ⟨k'.heap, live⟩ ∨
      q ≠ 0 ∧ HeapMarks ⟨k'.heap, ⟨q, max size minMallocSize⟩ :: live⟩) ∧
    ∀ addr, k'.heap.any (·.owns addr) = k.heap.any (·.owns addr) := by
  have hsize : 1 ≤ max size minMallocSize := by rw [minMallocSize]; omega
  cases malloc_cases h with
  | nothing => exact ⟨.inl ⟨rfl, hm⟩, fun _ => rfl⟩
  | found _ hroom =>
    obtain ⟨hm', howns⟩ := hm.heapAlloc_kept k.peek hsize hroom
    exact ⟨.inr ⟨hroom, hm'⟩, howns⟩
  | large _ hfull =>
    have hheap : (heapAlloc k.peek k.heap (max size minMallocSize)).2 = k.heap :=
      heapAlloc_unchanged (s := ⟨k.heap, live⟩) ⟨live, hm, List.Subperm.refl live⟩ hsize hfull
    rw [hheap]
    exact ⟨.inl ⟨rfl, hm⟩, fun _ => rfl⟩
  | grown _ _ hpages _ halloc hblock =>
    rcases grown_cases hpages halloc hblock with rfl | hnot
    · exact absurd rfl hne
    · exact absurd hsame hnot

theorem malloc_adds (h : malloc k size = some (q, k')) : Adds k k' := by
  refine ⟨malloc_onward h, fun hsame hne live hm => ?_⟩
  obtain ⟨hm' | hm', howns⟩ := malloc_kept h hsame hne hm
  · exact ⟨⟨[], hm'.2⟩, howns⟩
  · exact ⟨⟨[_], hm'.2⟩, howns⟩

theorem free_onward (k : Kernel) (p : ℕ) : Onward k (free k p) := by
  refine ⟨free_procs k p, ?_, fun _ hnil => ?_⟩
  · rw [free_mmu]
    exact .refl _
  · rw [free]
    split_ifs
    · exact hnil
    · rw [hnil]
      rfl

/-- A small request that gets no memory takes frames or loses the heap. -/
theorem malloc_zero (hpos : size ≠ 0) (hsize : size ≤ 1048576) (h : malloc k size = some (0, k'))
    (hsame : SameFrames k k') : k'.heap = [] := by
  generalize hq : 0 = q at h
  cases malloc_cases h with
  | nothing h0 => exact absurd h0 hpos
  | found _ hroom => exact absurd hq.symm hroom
  | large _ _ hpages =>
    rw [growPages_small hsize] at hpages
    omega
  | grown _ _ hpages _ halloc hblock =>
    rcases grown_cases hpages halloc hblock with rfl | hne
    · rfl
    · exact absurd hsame hne

end States

/-! ### The file systems -/

/-- The calls of the file systems only add, and what they find stays in memory: the inode that
`st_private` points to. -/
structure FsCalls.Sound (fs : FsCalls) (mounts : List Mount) : Prop where
  readdir : ∀ k, ∀ m ∈ mounts, ∀ dir i, Adds k (fs.readdir k m dir i)
  entry : ∀ k, ∀ m ∈ mounts, ∀ dir i e, m.fs.readdir dir i = .ok e →
    SameFrames k (fs.readdir k m dir i) → (fs.readdir k m dir i).heap ≠ [] →
    ∀ live, HeapMarks ⟨k.heap, live⟩ → ¬ HeapMarks ⟨(fs.readdir k m dir i).heap, live⟩
  read : ∀ k m st buf count, Adds k (fs.read k m st buf count).2

def firstName (path : List Char) : List Char :=
  (if path.head? = some '/' then path.tail else path).takeWhile (· ≠ '/')

theorem strtok_fst (s : List Char) :
    (strtok (some s) none '/').1 = some (s.takeWhile (· ≠ '/')) := by
  rw [strtok, Option.some_or]
  dsimp only
  have hsplit := List.takeWhile_append_dropWhile (p := fun c => decide (c ≠ '/')) (l := s)
  cases hd : s.dropWhile (· ≠ '/') with
  | nil =>
    rw [hd, List.append_nil] at hsplit
    dsimp only
    rw [hsplit]
  | cons c rest => rfl

section Calls
variable {fs : FsCalls} {root m : Mount} {mounts : List Mount} {k k₁ k₂ k' : Kernel}
  {live extra : List Alloc} {passes : ℕ} {s : Walk} {name path : List Char}
  {last filename : Option (List Char)} {st : Stat}

theorem findEntryCall_adds (hfs : fs.Sound mounts) (hm : m ∈ mounts) (dir : Stat)
    (name : List Char) (passes i : ℕ) (k : Kernel) :
    Adds k (findEntryCall fs m dir name passes i k).2 := by
  induction passes generalizing i k with
  | zero => exact .refl k
  | succ passes ih =>
    have hcall := hfs.readdir k m hm dir i
    rw [findEntryCall]
    rcases m.fs.readdir dir i with e | ⟨found, st⟩
    · exact hcall
    · dsimp only
      split_ifs
      · exact hcall
      · exact hcall.trans (ih (i + 1) _)

theorem found_mem (hs : s.mount ∈ root :: mounts) (st : Stat) :
    (s.found mounts st).mount ∈ root :: mounts := by
  rw [Walk.found]
  split_ifs
  · cases hat : mountAt mounts st.ino with
    | none => exact hs
    | some x => exact List.mem_cons_of_mem root (List.mem_of_find?_eq_some hat)
  · exact hs

theorem walkPathCall_adds (hfs : fs.Sound (root :: mounts)) (hs : s.mount ∈ root :: mounts)
    (passes : ℕ) (filename last : Option (List Char)) (k : Kernel) :
    Adds k (walkPathCall fs mounts passes s filename last k).2 := by
  induction passes generalizing s filename last k with
  | zero => exact .refl k
  | succ passes ih =>
    rcases filename with _ | name
    · exact .refl k
    have hcall := findEntryCall_adds hfs hs s.dir name (s.mount.fs.size s.dir + 1) 0 k
    simp only [walkPathCall]
    split_ifs
    · exact .refl k
    generalize findEntryCall fs s.mount s.dir name (s.mount.fs.size s.dir + 1) 0 k = r at hcall
    rcases r.1 with e | st
    · exact hcall
    · exact hcall.trans (ih (found_mem hs st) _ _ _)

/-- The first call for the first name: the walk ends with its error, or goes on behind it. -/
theorem walkPathCall_first (hfs : fs.Sound (root :: mounts)) (hs : s.mount ∈ root :: mounts)
    (hname : name ≠ []) (passes : ℕ) (last : Option (List Char)) (k : Kernel) :
    (∃ e, s.mount.fs.readdir s.dir 0 = .error e ∧
      walkPathCall fs mounts (passes + 1) s (some name) last k =
        (.error e, fs.readdir k s.mount s.dir 0)) ∨
    (∃ e, s.mount.fs.readdir s.dir 0 = .ok e) ∧ Adds (fs.readdir k s.mount s.dir 0)
      (walkPathCall fs mounts (passes + 1) s (some name) last k).2 := by
  simp only [walkPathCall, if_neg hname, findEntryCall]
  rcases s.mount.fs.readdir s.dir 0 with e | ⟨found, st⟩
  · exact .inl ⟨e, rfl, rfl⟩
  · refine .inr ⟨⟨_, rfl⟩, ?_⟩
    dsimp only
    split_ifs
    · exact walkPathCall_adds hfs (found_mem hs st) _ _ _ _
    · have hcall := findEntryCall_adds hfs hs s.dir name (s.mount.fs.size s.dir) 1
        (fs.readdir k s.mount s.dir 0)
      generalize findEntryCall fs s.mount s.dir name (s.mount.fs.size s.dir) 1
        (fs.readdir k s.mount s.dir 0) = r at hcall
      rcases r.1 with e | st
      · exact hcall
      · exact hcall.trans (walkPathCall_adds hfs (found_mem hs st) _ _ _ _)

end Calls

/-! ### When nothing is left behind -/

/-- The registers and the page directory of `p`, the frames that are taken and the live
allocations are those of before. -/
structure Untouched (k k' : Kernel) (p : ℕ) (live : List Alloc) : Prop where
  registers : (k'.procs p).r = (k.procs p).r
  pdt : (k'.procs p).pdt = (k.procs p).pdt
  frames : SameFrames k k'
  live : HeapMarks ⟨k'.heap, live⟩

/-- `malloc` finds `q` in the heap as it is, and `free` will find the block of `q`. -/
structure Lends (k k' : Kernel) (size q : ℕ) : Prop where
  call : malloc k size = some (q, k')
  ne : q ≠ 0
  frames : SameFrames k k'
  owned : k'.heap.any (·.owns q) = true

/-- What `vfs_load_file` goes through: the buffer is found at `raw` and its pointer moved up to
`addr`, and `read` returns `ret`. -/
structure Loads (k : Kernel) (fs : FsCalls) (m : Mount) (st : Stat) (k₁ k₂ : Kernel) (raw addr : ℕ)
    (ret : ℤ) : Prop where
  call : malloc k ((st.size % word32 + bitmapPageSize) % word32) = some (raw, k₁)
  aligned : mallocAlign k (st.size % word32) bitmapPageSize = some (addr, k₁)
  read : fs.read k₁ m st addr (st.size % word32) = (ret, k₂)

/-- It keeps nothing: the call of `read` leaves nothing behind, and there was no buffer, or
`read` fails and the pointer is in the first cell of the buffer. -/
structure LoadKeepsNothing (k : Kernel) (fs : FsCalls) (m : Mount) (st : Stat) (live : List Alloc)
    (k₁ k₂ : Kernel) (raw addr : ℕ) (ret : ℤ) : Prop extends Loads k fs m st k₁ k₂ raw addr ret where
  frames : SameFrames k k₂
  heap : raw = 0 ∧ HeapMarks ⟨k₂.heap, live⟩ ∨
    (ret < 0 ∧ alignUp raw bitmapPageSize < 16 ∧ k₁.heap.any (·.owns raw) = true) ∧ raw ≠ 0 ∧
      HeapMarks ⟨k₂.heap,
        ⟨raw, max ((st.size % word32 + bitmapPageSize) % word32) minMallocSize⟩ :: live⟩

/-- The memory of the copy of the path and of `f`, and that nothing is kept behind it. -/
structure LookupKeepsNothing (k : Kernel) (fs : FsCalls) (m : Mount) (path : List Char)
    (live : List Alloc) (fn f : ℕ) (k₁ k₂ : Kernel) : Prop where
  name : Lends k k₁ ((path.length + 1) % word32) fn
  file : Lends k₁ k₂ sizeofFile f
  walk : firstName path ≠ [] → (∃ e, m.fs.readdir m.rootdir 0 = .error e) ∧
    SameFrames k₂ (fs.readdir k₂ m m.rootdir 0) ∧
    HeapMarks ⟨(fs.readdir k₂ m m.rootdir 0).heap, ⟨f, sizeofFile⟩ ::
      ⟨fn, max ((path.length + 1) % word32) minMallocSize⟩ :: live⟩
  load : firstName path = [] → ∃ k₃ k₄ raw addr ret,
    LoadKeepsNothing (free (free k₂ f) fn) fs m m.rootdir live k₃ k₄ raw addr ret

/-- The call ends before it allocates anything; or the heap has room, and the directory is not
read before the error. -/
def KeepsNothing (k : Kernel) (fs : FsCalls) (root : Option Mount) (path : Option (List Char))
    (live : List Alloc) : Prop :=
  root = none ∨ path = none ∨ path = some [] ∨ ∃ m s fn f k₁ k₂, root = some m ∧ path = some s ∧
    LookupKeepsNothing k fs m s live fn f k₁ k₂

section Load
variable {fs : FsCalls} {mounts : List Mount} {m : Mount} {st : Stat} {k k₁ k₂ : Kernel}
  {live extra : List Alloc} {file : ℕ × Kernel} {raw addr : ℕ} {ret : ℤ}

/-- The pointer of the buffer moved up, in 32 bits. -/
theorem Loads.addr_mod (h : Loads k fs m st k₁ k₂ raw addr ret) (hraw : raw ≠ 0) :
    addr = (raw + alignUp raw bitmapPageSize) % word32 := by
  have halign := h.aligned
  have hlt := malloc_lt h.call
  rw [mallocAlign, h.call, Option.map_some] at halign
  dsimp only at halign
  rw [alignUp]
  by_cases h0 : raw % bitmapPageSize = 0
  · rw [if_neg fun hup => hup.2 h0] at halign
    rw [if_pos h0, Nat.add_zero, Nat.mod_eq_of_lt hlt]
    exact (Prod.mk.inj (Option.some.inj halign)).1.symm
  · rw [if_pos ⟨hraw, h0⟩] at halign
    rw [if_neg h0]
    exact (Prod.mk.inj (Option.some.inj halign)).1.symm

/-- It is in the buffer or `NULL`. -/
theorem Loads.addr_eq (h : Loads k fs m st k₁ k₂ raw addr ret) :
    addr = 0 ∨ raw ≠ 0 ∧ addr = raw + alignUp raw bitmapPageSize := by
  by_cases h0 : raw = 0
  · refine .inl ?_
    have halign := h.aligned
    rw [mallocAlign, h.call, Option.map_some, if_neg fun hne => hne.1 h0] at halign
    rw [← (Prod.mk.inj (Option.some.inj halign)).1, h0]
  · have hmod := h.addr_mod h0
    have hlt := malloc_lt h.call
    have hup := alignUp_lt (show 0 < bitmapPageSize by decide) raw
    have hpage := alignUp_mod (show 0 < bitmapPageSize by decide) raw
    rw [bitmapPageSize, word32] at *
    omega

theorem Loads.end_eq {k₁' k₂' : Kernel} {raw' addr' : ℕ} {ret' : ℤ}
    (h : Loads k fs m st k₁ k₂ raw addr ret) (h' : Loads k fs m st k₁' k₂' raw' addr' ret') :
    k₂ = k₂' ∧ addr = addr' ∧ ret = ret' := by
  obtain ⟨rfl, rfl⟩ := Prod.mk.inj (Option.some.inj (h.aligned.symm.trans h'.aligned))
  obtain ⟨rfl, rfl⟩ := Prod.mk.inj (h.read.symm.trans h'.read)
  exact ⟨rfl, rfl, rfl⟩

/-- What `vfs_load_file` returns. -/
def loaded (k₂ : Kernel) (addr : ℕ) (ret : ℤ) : ℕ × Kernel :=
  if ret < 0 then (0, free k₂ addr) else (addr, k₂)

theorem vfsLoadFile_eq (h : vfsLoadFile k fs m st = some file) : ∃ k₁ k₂ raw addr ret,
    Loads k fs m st k₁ k₂ raw addr ret ∧ file = loaded k₂ addr ret := by
  obtain ⟨⟨addr, k₁⟩, halign, rfl⟩ := Option.map_eq_some_iff.mp h
  obtain ⟨⟨raw, k₂⟩, hmalloc, heq⟩ := Option.map_eq_some_iff.mp halign
  dsimp only at heq
  obtain rfl : k₂ = k₁ := by
    split_ifs at heq
    · exact (Prod.mk.inj heq).2
    · exact (Prod.mk.inj heq).2
  exact ⟨k₂, _, raw, addr, _, ⟨hmalloc, halign, rfl⟩, rfl⟩

theorem loaded_onward (k₂ : Kernel) (addr : ℕ) (ret : ℤ) : Onward k₂ (loaded k₂ addr ret).2 := by
  rw [loaded]
  split_ifs
  · exact free_onward _ _
  · exact .refl _

theorem loaded_heap (k₂ : Kernel) (addr : ℕ) (ret : ℤ) : (loaded k₂ addr ret).2.heap =
    if ret < 0 ∧ addr ≠ 0 then (heapFree k₂.heap addr).2 else k₂.heap := by
  rw [loaded]
  by_cases hret : ret < 0
  · by_cases h0 : addr = 0
    · rw [if_pos hret, if_neg (by simp [h0]), free, if_pos h0]
    · rw [if_pos hret, if_pos ⟨hret, h0⟩, free_heap, if_neg h0]
  · rw [if_neg hret, if_neg fun h => hret h.1]

theorem Loads.adds (hfs : fs.Sound mounts) (h : Loads k fs m st k₁ k₂ raw addr ret) : Adds k₁ k₂ := by
  have hread := hfs.read k₁ m st addr (st.size % word32)
  rw [h.read] at hread
  exact hread

theorem Loads.onward (hfs : fs.Sound mounts) (h : Loads k fs m st k₁ k₂ raw addr ret) :
    Onward k (loaded k₂ addr ret).2 :=
  ((malloc_onward h.call).trans (h.adds hfs).toOnward).trans (loaded_onward k₂ addr ret)

/-- What was live before the file was loaded is live afterwards, and nothing else: then there
was nothing else before, and nothing is kept. -/
theorem Loads.keepsNothing (hfs : fs.Sound mounts) (hlive : live ≠ [])
    (h : Loads k fs m st k₁ k₂ raw addr ret) (hm : HeapMarks ⟨k.heap, extra ++ live⟩)
    (hsame : SameFrames k (loaded k₂ addr ret).2)
    (hm' : HeapMarks ⟨(loaded k₂ addr ret).2.heap, live⟩) :
    extra = [] ∧ LoadKeepsNothing k fs m st live k₁ k₂ raw addr ret := by
  have hread := h.adds hfs
  have hlast := loaded_onward k₂ addr ret
  obtain ⟨h01, h1⟩ := (malloc_onward h.call).between (hread.toOnward.trans hlast) hsame
  obtain ⟨h12, h2⟩ := hread.between hlast h1
  have hne₂ := hlast.heap_ne h2 (hm'.heap_ne hlive)
  have hne₁ := hread.heap_ne h12 hne₂
  have h02 : SameFrames k k₂ := fun g => (h12 g).trans (h01 g)
  rw [loaded_heap] at hm'
  rcases (malloc_kept h.call h01 hne₁ hm).1 with ⟨h0, hm₁⟩ | ⟨hraw, hm₁⟩
  · have haddr : addr = 0 := h.addr_eq.resolve_right fun hne => hne.1 h0
    obtain ⟨⟨left, hm₂⟩, -⟩ := hread.heap h12 hne₂ _ hm₁
    rw [if_neg fun hne => hne.2 haddr] at hm'
    rw [← List.append_assoc] at hm₂
    exact ⟨(List.append_eq_nil_iff.mp (hm₂.nothing_left hm')).2, h, h02, .inl ⟨h0, hm'⟩⟩
  · obtain ⟨⟨left, hm₂⟩, howns⟩ := hread.heap h12 hne₂ _ hm₁
    have hperm : HeapMarks ⟨k₂.heap, (left ++ extra) ++ ⟨raw, max ((st.size % word32 +
        bitmapPageSize) % word32) minMallocSize⟩ :: live⟩ := by
      refine hm₂.perm ?_
      rw [List.append_assoc]
      exact List.perm_middle.symm.append_left left
    split_ifs at hm' with hfree
    · obtain ⟨-, haddr⟩ := h.addr_eq.resolve_left hfree.2
      rw [haddr] at hm'
      obtain ⟨hnil, hfirst, hown⟩ := hperm.free_live_iff.mp hm'
      rw [hnil] at hperm
      dsimp only at hown
      rw [howns] at hown
      exact ⟨(List.append_eq_nil_iff.mp hnil).2, h, h02,
        .inr ⟨⟨hfree.1, hfirst, hown⟩, hraw, hperm⟩⟩
    · -- the buffer is still there
      rw [List.append_cons] at hperm
      have hnil := hperm.nothing_left hm'
      simp at hnil

theorem LoadKeepsNothing.keeps (hfs : fs.Sound mounts)
    (h : LoadKeepsNothing k fs m st live k₁ k₂ raw addr ret) (hm : HeapMarks ⟨k.heap, live⟩) :
    SameFrames k (loaded k₂ addr ret).2 ∧ HeapMarks ⟨(loaded k₂ addr ret).2.heap, live⟩ := by
  have hread := h.adds hfs
  have hframes : SameFrames k (loaded k₂ addr ret).2 := by
    rw [loaded]
    split_ifs
    · intro g
      rw [free_mmu, h.frames]
    · exact h.frames
  refine ⟨hframes, ?_⟩
  rw [loaded_heap]
  rcases h.heap with ⟨h0, hm₂⟩ | ⟨⟨hret, hfirst, hown⟩, hraw, hm₂⟩
  · rw [if_neg fun hne => hne.2 (h.addr_eq.resolve_right fun hne => hne.1 h0)]
    exact hm₂
  · obtain ⟨h01, h12⟩ := (malloc_onward h.call).between hread.toOnward h.frames
    have hne₂ := hm₂.heap_ne (List.cons_ne_nil _ _)
    obtain ⟨hm₁, -⟩ := malloc_kept h.call h01 (hread.heap_ne h12 hne₂) hm
    obtain ⟨-, howns⟩ := hread.heap h12 hne₂ _ (hm₁.resolve_left fun h0 => hraw h0.1).2
    have htop := hm₂.top_le List.mem_cons_self
    have hpos := hm₂.cells_pos List.mem_cons_self
    have haddr : addr = raw + alignUp raw bitmapPageSize := by
      simp only [Alloc.cells] at htop hpos
      rw [h.addr_mod hraw, Nat.mod_eq_of_lt (by omega)]
    rw [if_pos ⟨hret, by omega⟩, haddr]
    exact hm₂.free_first hfirst ((howns raw).trans hown)

end Load

section Lookup
variable {fs : FsCalls} {mounts : List Mount} {root : Option Mount} {m : Mount} {k k₁ k₂ k' : Kernel}
  {live extra : List Alloc} {path : List Char} {fn f : ℕ} {p argv envp : ℕ} {e : ℤ}
  {r : Except ℤ (Option Mount × Stat) × Kernel}

/-- What `vfs_stat` goes through behind its checks, when it got the memory for `f`. -/
structure Looks (k : Kernel) (fs : FsCalls) (mounts : List Mount) (m : Mount) (path : List Char)
    (fn f : ℕ) (k₁ k₂ : Kernel) (w : Except ℤ Walk × Kernel) : Prop where
  name : malloc k ((path.length + 1) % word32) = some (fn, k₁)
  name_ne : fn ≠ 0
  file : malloc k₁ sizeofFile = some (f, k₂)
  file_ne : f ≠ 0
  walk : ∃ last, w = walkPathCall fs mounts (path.length + 1) ⟨m, m.rootdir, m.rootdir⟩
    (some (firstName path)) last k₂

/-- The ways through `vfs_stat`. -/
inductive Stats (k : Kernel) (fs : FsCalls) (mounts : List Mount) : Option Mount →
    Option (List Char) → Except ℤ (Option Mount × Stat) × Kernel → Prop
  | unmounted (path : Option (List Char)) : Stats k fs mounts none path (.error (-enodev), k)
  | null (m : Mount) : Stats k fs mounts (some m) none (.error (-einval), k)
  | empty (m : Mount) : Stats k fs mounts (some m) (some []) (.error (-einval), k)
  | rootdir (m : Mount) : Stats k fs mounts (some m) (some ['/']) (.ok (none, m.rootdir), k)
  | full (m : Mount) (path : List Char) (hne : path ≠ []) {fn : ℕ} {k₁ k₂ : Kernel}
      (name : malloc k ((path.length + 1) % word32) = some (fn, k₁))
      (file : malloc k₁ sizeofFile = some (0, k₂)) :
    Stats k fs mounts (some m) (some path) (.error (-enomem), free k₂ fn)
  | looked (m : Mount) (path : List Char) (hne : path ≠ []) {fn f : ℕ} {k₁ k₂ : Kernel}
      {w : Except ℤ Walk × Kernel} (h : Looks k fs mounts m path fn f k₁ k₂ w) :
    Stats k fs mounts (some m) (some path)
      (w.1.map fun s => (some s.mount, s.st), free (free w.2 f) fn)

theorem vfsStatCall_cases {path : Option (List Char)} (h : vfsStatCall k fs root mounts path = some r) :
    Stats k fs mounts root path r := by
  unfold vfsStatCall at h
  rcases root with _ | m
  · obtain rfl := Option.some.inj h
    exact .unmounted path
  rcases path with _ | path
  · obtain rfl := Option.some.inj h
    exact .null m
  dsimp only at h
  by_cases hempty : path = []
  · rw [if_pos hempty] at h
    obtain rfl := Option.some.inj h
    rw [hempty]
    exact .empty m
  rw [if_neg hempty] at h
  by_cases hslash : path = ['/']
  · rw [if_pos hslash] at h
    obtain rfl := Option.some.inj h
    rw [hslash]
    exact .rootdir m
  rw [if_neg hslash] at h
  obtain ⟨⟨fn, k₁⟩, hname, h⟩ := Option.bind_eq_some_iff.mp h
  dsimp only at h
  by_cases hfn : fn = 0
  · rw [if_pos hfn] at h
    cases h
  rw [if_neg hfn] at h
  obtain ⟨⟨f, k₂⟩, hfile, rfl⟩ := Option.map_eq_some_iff.mp h
  dsimp only
  by_cases hf : f = 0
  · rw [if_pos hf]
    exact .full m path hempty hname (hf ▸ hfile)
  · rw [if_neg hf, strtok_fst]
    exact .looked m path hempty ⟨hname, hfn, hfile, hf, _, rfl⟩

/-- The two frees at the end of `vfs_stat`. -/
theorem free_both {left : List Alloc} {a b : Alloc} (ha : a.ptr ≠ 0) (hb : b.ptr ≠ 0)
    (hm : HeapMarks ⟨k.heap, left ++ a :: b :: live⟩) :
    ∃ extra, HeapMarks ⟨(free (free k a.ptr) b.ptr).heap, extra ++ live⟩ ∧
      (extra = [] ↔ left = [] ∧ k.heap.any (·.owns a.ptr) = true ∧
        k.heap.any (·.owns b.ptr) = true) := by
  obtain ⟨held, hheld, hiff⟩ := hm.free_any
  obtain ⟨extra, hextra, hiff'⟩ := hheld.free_any
  refine ⟨extra, ?_, ?_⟩
  · rw [free_heap, if_neg hb, free_heap, if_neg ha]
    exact hextra
  · rw [hiff', hiff, heapFree_owns, and_assoc]

/-- The walk adds, and more than nothing when it finds an entry. -/
theorem Looks.walked (hfs : fs.Sound (m :: mounts)) {w : Except ℤ Walk × Kernel}
    (h : Looks k fs mounts m path fn f k₁ k₂ w) :
    firstName path = [] ∧ w = (.ok ⟨m, m.rootdir, m.rootdir⟩, k₂) ∨ firstName path ≠ [] ∧
      ((∃ e, m.fs.readdir m.rootdir 0 = .error e ∧ w = (.error e, fs.readdir k₂ m m.rootdir 0)) ∨
        (∃ e, m.fs.readdir m.rootdir 0 = .ok e) ∧ Adds (fs.readdir k₂ m m.rootdir 0) w.2) := by
  obtain ⟨last, rfl⟩ := h.walk
  by_cases hname : firstName path = []
  · refine .inl ⟨hname, ?_⟩
    simp only [walkPathCall, hname, if_true]
  · exact .inr ⟨hname, walkPathCall_first (s := ⟨m, m.rootdir, m.rootdir⟩) hfs
      List.mem_cons_self hname _ _ _⟩

theorem Looks.adds (hfs : fs.Sound (m :: mounts)) {w : Except ℤ Walk × Kernel}
    (h : Looks k fs mounts m path fn f k₁ k₂ w) : Adds k₂ w.2 := by
  obtain ⟨last, rfl⟩ := h.walk
  exact walkPathCall_adds hfs List.mem_cons_self _ _ _ _

/-- Where a call that fails ends: in `vfs_stat`, or behind `vfs_load_file`. -/
inductive Ends (fs : FsCalls) : Except ℤ (Option Mount × Stat) × Kernel → Kernel → Prop
  | stat (e : ℤ) (k : Kernel) : Ends fs (.error e, k) k
  | load {k k₁ k₂ : Kernel} {m : Mount} {st : Stat} {raw addr : ℕ} {ret : ℤ}
      (h : Loads k fs m st k₁ k₂ raw addr ret) :
    Ends fs (.ok (some m, st), k) (loaded k₂ addr ret).2

theorem processExecve_fails {path : Option (List Char)}
    (h : processExecve k fs root mounts p path argv envp = some (e, k')) (he : e < 0) :
    ∃ r, Stats k fs mounts root path r ∧ Ends fs r k' := by
  obtain ⟨⟨r, k₀⟩, hstat, h⟩ := Option.bind_eq_some_iff.mp h
  refine ⟨(r, k₀), vfsStatCall_cases hstat, ?_⟩
  rcases r with e' | ⟨_ | m, st⟩
  · obtain ⟨-, rfl⟩ := Prod.mk.inj (Option.some.inj h)
    exact .stat e' k₀
  · cases h
  · obtain ⟨file, hload, h⟩ := Option.bind_eq_some_iff.mp h
    obtain ⟨k₁, k₂, raw, addr, ret, hloads, rfl⟩ := vfsLoadFile_eq hload
    have hend : k' = (loaded k₂ addr ret).2 := by
      split_ifs at h
      · exact (Prod.mk.inj (Option.some.inj h)).2.symm
      · exact (Prod.mk.inj (Option.some.inj h)).2.symm
      · obtain ⟨k₃, -, heq⟩ := Option.map_eq_some_iff.mp h
        obtain ⟨rfl, -⟩ := Prod.mk.inj heq
        exact absurd he (lt_irrefl 0)
      · exact (Prod.mk.inj (Option.some.inj h)).2.symm
    rw [hend]
    exact .load hloads

/-- What is live behind `vfs_stat`, and when that is what was live before. -/
theorem Looks.left_live (hfs : fs.Sound (m :: mounts)) {w : Except ℤ Walk × Kernel}
    (h : Looks k fs mounts m path fn f k₁ k₂ w) (hm : HeapMarks ⟨k.heap, live⟩)
    (hrest : Onward (free (free w.2 f) fn) k') (hsame : SameFrames k k') (hne : k'.heap ≠ []) :
    ∃ extra, HeapMarks ⟨(free (free w.2 f) fn).heap, extra ++ live⟩ ∧ (extra = [] →
      Lends k k₁ ((path.length + 1) % word32) fn ∧ Lends k₁ k₂ sizeofFile f ∧
      (firstName path ≠ [] → (∃ e, m.fs.readdir m.rootdir 0 = .error e ∧ w.1 = .error e) ∧
        SameFrames k₂ (fs.readdir k₂ m m.rootdir 0) ∧
        HeapMarks ⟨(fs.readdir k₂ m m.rootdir 0).heap, ⟨f, sizeofFile⟩ ::
          ⟨fn, max ((path.length + 1) % word32) minMallocSize⟩ :: live⟩)) := by
  have hwalk := h.adds hfs
  have hfrees := (free_onward w.2 f).trans ((free_onward (free w.2 f) fn).trans hrest)
  obtain ⟨h1, hsame₁⟩ := (malloc_onward h.name).between
    ((malloc_onward h.file).trans (hwalk.toOnward.trans hfrees)) hsame
  obtain ⟨h2, hsame₂⟩ := (malloc_onward h.file).between (hwalk.toOnward.trans hfrees) hsame₁
  obtain ⟨h3, hsame₃⟩ := hwalk.between hfrees hsame₂
  have hne₃ := hfrees.heap_ne hsame₃ hne
  have hne₂ := hwalk.heap_ne h3 hne₃
  have hne₁ := (malloc_onward h.file).heap_ne h2 hne₂
  obtain ⟨hm₁, -⟩ := malloc_kept h.name h1 hne₁ hm
  replace hm₁ := (hm₁.resolve_left fun h0 => h.name_ne h0.1).2
  obtain ⟨hm₂, howns₂⟩ := malloc_kept h.file h2 hne₂ hm₁
  replace hm₂ := (hm₂.resolve_left fun h0 => h.file_ne h0.1).2
  obtain ⟨⟨left, hm₃⟩, howns₃⟩ := hwalk.heap h3 hne₃ _ hm₂
  obtain ⟨extra, hextra, hiff⟩ := free_both (k := w.2) (a := ⟨f, max sizeofFile minMallocSize⟩)
    (b := ⟨fn, max ((path.length + 1) % word32) minMallocSize⟩) h.file_ne h.name_ne hm₃
  refine ⟨extra, hextra, fun hnil => ?_⟩
  obtain ⟨rfl, hownf, hownfn⟩ := hiff.mp hnil
  rw [howns₃] at hownf hownfn
  refine ⟨⟨h.name, h.name_ne, h1, (howns₂ fn).symm.trans hownfn⟩,
    ⟨h.file, h.file_ne, h2, hownf⟩, fun hname => ?_⟩
  rcases (h.walked hfs).resolve_left fun hnot => hname hnot.1 with ⟨-, ⟨e, he, rfl⟩ | ⟨⟨e, he⟩, hadds⟩⟩
  · exact ⟨⟨e, he, rfl⟩, h3, hm₃⟩
  · -- the entry that was found is still in memory
    have hcall := hfs.readdir k₂ m List.mem_cons_self m.rootdir 0
    obtain ⟨h4, h5⟩ := hcall.between hadds.toOnward h3
    have hne₄ := hadds.heap_ne h5 hne₃
    obtain ⟨⟨more, hm₄⟩, -⟩ := hcall.heap h4 hne₄ _ hm₂
    obtain ⟨⟨more', hm₅⟩, -⟩ := hadds.heap h5 hne₃ _ hm₄
    rw [List.nil_append] at hm₃
    rw [← List.append_assoc] at hm₅
    obtain rfl := (List.append_eq_nil_iff.mp (hm₅.nothing_left hm₃)).2
    exact absurd hm₄ (hfs.entry k₂ m List.mem_cons_self _ _ _ he h4 hne₄ _ hm₂)

/-- The memory of `vfs_stat` is given back, if nothing is kept behind it. -/
theorem Looks.given_back (hfs : fs.Sound (m :: mounts)) {w : Except ℤ Walk × Kernel}
    (h : Looks k fs mounts m path fn f k₁ k₂ w) (hm : HeapMarks ⟨k.heap, live⟩)
    (hkeeps : LookupKeepsNothing k fs m path live fn f k₁ k₂) :
    SameFrames k (free (free w.2 f) fn) ∧ HeapMarks ⟨(free (free w.2 f) fn).heap, live⟩ := by
  have hne : ∀ {h : Heap} {q : ℕ}, h.any (·.owns q) = true → h ≠ [] := by
    rintro h q hown rfl
    cases hown
  obtain ⟨hm₁, -⟩ := malloc_kept h.name hkeeps.name.frames (hne hkeeps.name.owned) hm
  replace hm₁ := (hm₁.resolve_left fun h0 => h.name_ne h0.1).2
  obtain ⟨hm₂, howns₂⟩ := malloc_kept h.file hkeeps.file.frames (hne hkeeps.file.owned) hm₁
  replace hm₂ := (hm₂.resolve_left fun h0 => h.file_ne h0.1).2
  have hw : SameFrames k₂ w.2 ∧ HeapMarks ⟨w.2.heap, ⟨f, sizeofFile⟩ ::
      ⟨fn, max ((path.length + 1) % word32) minMallocSize⟩ :: live⟩ := by
    rcases h.walked hfs with ⟨-, rfl⟩ | ⟨hname, ⟨e, he, rfl⟩ | ⟨⟨e, he⟩, -⟩⟩
    · exact ⟨fun _ => rfl, hm₂⟩
    · exact (hkeeps.walk hname).2
    · obtain ⟨e', he'⟩ := (hkeeps.walk hname).1
      rw [he] at he'
      cases he'
  obtain ⟨-, howns₃⟩ := (h.adds hfs).heap hw.1 (hw.2.heap_ne (List.cons_ne_nil _ _)) _ hm₂
  have hboth : HeapMarks ⟨w.2.heap, [] ++ ⟨f, sizeofFile⟩ ::
      ⟨fn, max ((path.length + 1) % word32) minMallocSize⟩ :: live⟩ := hw.2
  obtain ⟨extra, hextra, hiff⟩ := free_both h.file_ne h.name_ne hboth
  obtain rfl := hiff.mpr ⟨rfl, (howns₃ f).trans hkeeps.file.owned,
    (howns₃ fn).trans ((howns₂ fn).trans hkeeps.name.owned)⟩
  refine ⟨fun g => ?_, hextra⟩
  rw [free_mmu, free_mmu, hw.1 g, hkeeps.file.frames g, hkeeps.name.frames g]

theorem Looks.onward (hfs : fs.Sound (m :: mounts)) {w : Except ℤ Walk × Kernel}
    (h : Looks k fs mounts m path fn f k₁ k₂ w) : Onward k (free (free w.2 f) fn) :=
  (malloc_onward h.name).trans ((malloc_onward h.file).trans
    ((h.adds hfs).toOnward.trans ((free_onward _ _).trans (free_onward _ _))))

/-- A call that found the memory for the lookup and left no trace. -/
theorem Looks.keepsNothing (hfs : fs.Sound (m :: mounts)) {w : Except ℤ Walk × Kernel}
    (h : Looks k fs mounts m path fn f k₁ k₂ w) (hm : HeapMarks ⟨k.heap, live⟩) (hlive : live ≠ [])
    (hend : Ends fs (w.1.map fun s => (some s.mount, s.st), free (free w.2 f) fn) k')
    (hk' : Untouched k k' p live) : LookupKeepsNothing k fs m path live fn f k₁ k₂ := by
  have hne := hk'.live.heap_ne hlive
  generalize hr : w.1.map (fun s => (some s.mount, s.st)) = r at hend
  cases hend with
  | stat e =>
    obtain ⟨extra, hextra, hkeeps⟩ := h.left_live hfs hm (.refl _) hk'.frames hne
    obtain ⟨hname, hfile, hwalk⟩ := hkeeps (hextra.nothing_left hk'.live)
    refine ⟨hname, hfile, fun hfirst => ?_, fun hfirst => ?_⟩
    · obtain ⟨⟨e, he, -⟩, hquiet⟩ := hwalk hfirst
      exact ⟨⟨e, he⟩, hquiet⟩
    · obtain ⟨-, rfl⟩ := (h.walked hfs).resolve_right fun hnot => hnot.1 hfirst
      cases hr
  | load hloads =>
    have hrest := hloads.onward hfs
    obtain ⟨extra, hextra, hkeeps⟩ := h.left_live hfs hm hrest hk'.frames hne
    obtain ⟨-, h2⟩ := (h.onward hfs).between hrest hk'.frames
    obtain ⟨hnil, hload⟩ := hloads.keepsNothing hfs hlive hextra h2 hk'.live
    obtain ⟨hname, hfile, hwalk⟩ := hkeeps hnil
    refine ⟨hname, hfile, fun hfirst => ?_, fun hfirst => ?_⟩
    · obtain ⟨⟨e, he, -⟩, hquiet⟩ := hwalk hfirst
      exact ⟨⟨e, he⟩, hquiet⟩
    · obtain ⟨-, rfl⟩ := (h.walked hfs).resolve_right fun hnot => hnot.1 hfirst
      obtain ⟨hmount, rfl⟩ := Prod.mk.inj (Except.ok.inj hr)
      obtain rfl := Option.some.inj hmount
      exact ⟨_, _, _, _, _, hload⟩

theorem Looks.untouched (hfs : fs.Sound (m :: mounts)) {w : Except ℤ Walk × Kernel}
    (h : Looks k fs mounts m path fn f k₁ k₂ w) (hm : HeapMarks ⟨k.heap, live⟩)
    (hend : Ends fs (w.1.map fun s => (some s.mount, s.st), free (free w.2 f) fn) k')
    (hkeeps : LookupKeepsNothing k fs m path live fn f k₁ k₂) : Untouched k k' p live := by
  obtain ⟨hframes, hback⟩ := h.given_back hfs hm hkeeps
  have hon := h.onward hfs
  generalize hr : w.1.map (fun s => (some s.mount, s.st)) = r at hend
  cases hend with
  | stat e => exact ⟨by rw [hon.procs], by rw [hon.procs], hframes, hback⟩
  | load hloads =>
    have hfirst : firstName path = [] := by
      by_contra hfirst
      obtain ⟨e, he⟩ := (hkeeps.walk hfirst).1
      rcases (h.walked hfs).resolve_left fun hnot => hfirst hnot.1 with
        ⟨-, ⟨e', -, rfl⟩ | ⟨⟨e', he'⟩, -⟩⟩
      · cases hr
      · rw [he] at he'
        cases he'
    obtain ⟨-, rfl⟩ := (h.walked hfs).resolve_right fun hnot => hnot.1 hfirst
    obtain ⟨hmount, rfl⟩ := Prod.mk.inj (Except.ok.inj hr)
    obtain rfl := Option.some.inj hmount
    obtain ⟨k₃, k₄, raw, addr, ret, hload⟩ := hkeeps.load hfirst
    obtain ⟨rfl, rfl, rfl⟩ := hload.toLoads.end_eq hloads
    obtain ⟨hframes', hlive'⟩ := hload.keeps hfs hback
    have hon' := hon.trans (hloads.onward hfs)
    exact ⟨by rw [hon'.procs], by rw [hon'.procs], fun g => (hframes' g).trans (hframes g), hlive'⟩

/-- A failed `execve` leaves no trace exactly if it keeps nothing: it ends before it allocates
anything, or the heap has room for what it needs, it does not get to an entry of the root
directory, and it gives back the buffer of the file. -/
theorem failed_execve_untouched_iff {path : Option (List Char)}
    (hfs : ∀ m, root = some m → fs.Sound (m :: mounts)) (hm : HeapMarks ⟨k.heap, live⟩)
    (hp : ∃ a ∈ live, a.ptr = p)
    (h : processExecve k fs root mounts p path argv envp = some (e, k')) (he : e < 0) :
    Untouched k k' p live ↔ KeepsNothing k fs root path live := by
  have hlive : live ≠ [] := by
    rintro rfl
    obtain ⟨a, ha, -⟩ := hp
    cases ha
  have hsame : Untouched k k p live := ⟨rfl, rfl, fun _ => rfl, hm⟩
  obtain ⟨r, hstat, hend⟩ := processExecve_fails h he
  cases hstat with
  | unmounted =>
    cases hend
    exact iff_of_true hsame (.inl rfl)
  | null =>
    cases hend
    exact iff_of_true hsame (.inr (.inl rfl))
  | empty =>
    cases hend
    exact iff_of_true hsame (.inr (.inr (.inl rfl)))
  | rootdir => cases hend
  | @full m path hne fn k₁ k₂ name file =>
    cases hend
    refine iff_of_false (fun h => ?_) ?_
    · have hlast := free_onward k₂ fn
      obtain ⟨-, h1⟩ := (malloc_onward name).between ((malloc_onward file).trans hlast) h.frames
      obtain ⟨h2, h3⟩ := (malloc_onward file).between hlast h1
      exact hlast.heap_ne h3 (h.live.heap_ne hlive) (malloc_zero (by decide) (by decide) file h2)
    · rintro (h | h | h | ⟨m', path', fn', f, k₁', k₂', hm', hpath, hkeeps⟩)
      · cases h
      · cases h
      · exact hne (Option.some.inj h)
      · obtain rfl := Option.some.inj hpath
        obtain ⟨rfl, rfl⟩ := Prod.mk.inj (Option.some.inj (name.symm.trans hkeeps.name.call))
        have hfile := Prod.mk.inj (Option.some.inj (file.symm.trans hkeeps.file.call))
        exact hkeeps.file.ne hfile.1.symm
  | @looked m path hne fn f k₁ k₂ w hlook =>
    constructor
    · intro h
      exact .inr (.inr (.inr ⟨m, path, fn, f, k₁, k₂, rfl, rfl,
        hlook.keepsNothing (hfs m rfl) hm hlive hend h⟩))
    · rintro (h | h | h | ⟨m', path', fn', f', k₁', k₂', hm', hpath, hkeeps⟩)
      · cases h
      · cases h
      · exact absurd (Option.some.inj h) hne
      · obtain rfl := Option.some.inj hm'
        obtain rfl := Option.some.inj hpath
        obtain ⟨rfl, rfl⟩ :=
          Prod.mk.inj (Option.some.inj (hlook.name.symm.trans hkeeps.name.call))
        obtain ⟨rfl, rfl⟩ :=
          Prod.mk.inj (Option.some.inj (hlook.file.symm.trans hkeeps.file.call))
        exact hlook.untouched (hfs m rfl) hm hend hkeeps

end Lookup

/-- A heap of one page with the process at `0xc0100114`. -/
theorem allocatedPage_marks {size : ℕ} (hsize : 1 ≤ size)
    (hptr : (heapAlloc (fun _ => 0) emptyPage size).1 = 0xc0100114) :
    HeapMarks ⟨allocatedPage size, [⟨0xc0100114, size⟩]⟩ := by
  have hempty : HeapMarks ⟨emptyPage, []⟩ := by
    rw [emptyPage]
    exact HeapMarks.init.addBlock (by decide) (by decide) (by decide) (by simp [heapInit])
  have hkept := hempty.heapAlloc_kept (fun _ => 0) hsize (by rw [hptr]; decide)
  rw [hptr] at hkept
  rw [allocatedPage]
  exact hkept.1

/-- A file system without files, whose calls do nothing. -/
def emptyCalls : FsCalls where
  readdir := fun k _ _ _ => k
  read := fun k _ _ _ _ => (0, k)

def emptyMount : Mount where
  id := 0
  fs := listedFs fun _ => []
  rootdir := plainStat 1 0x41ff
  ino := 1
  parent := 0

theorem emptyCalls_sound : emptyCalls.Sound [emptyMount] := by
  refine ⟨fun k _ _ _ _ => .refl k, fun k m hm dir i e he => ?_, fun k _ _ _ _ => .refl k⟩
  rw [List.mem_singleton.mp hm] at he
  cases he

theorem lends_of_room {k : Kernel} {size : ℕ} (hsize : size ≠ 0)
    (hroom : (heapAlloc k.peek k.heap (max size minMallocSize)).1 ≠ 0)
    (hown : (heapAlloc k.peek k.heap (max size minMallocSize)).2.any
      (·.owns (heapAlloc k.peek k.heap (max size minMallocSize)).1) = true) :
    Lends k { k with heap := (heapAlloc k.peek k.heap (max size minMallocSize)).2 } size
      (heapAlloc k.peek k.heap (max size minMallocSize)).1 := by
  refine ⟨?_, hroom, fun _ => rfl, hown⟩
  rw [malloc, if_neg hsize]
  dsimp only
  rw [if_neg hroom]

theorem Lends.live {k k' : Kernel} {size q : ℕ} {live : List Alloc} (h : Lends k k' size q)
    (hm : HeapMarks ⟨k.heap, live⟩) :
    HeapMarks ⟨k'.heap, ⟨q, max size minMallocSize⟩ :: live⟩ := by
  have hne : k'.heap ≠ [] := by
    intro hnil
    have hown := h.owned
    rw [hnil] at hown
    cases hown
  exact ((malloc_kept h.call h.frames hne hm).1.resolve_left fun h0 => h.ne h0.1).2

theorem failed_execve_untouched_of_empty_directory : ∃ k',
    processExecve (mappedKernel (allocatedPage 556)) emptyCalls (some emptyMount) [] 0xc0100114
      (some ['/', 'x']) 0 0 = some (-2, k') ∧
    Untouched (mappedKernel (allocatedPage 556)) k' 0xc0100114 [⟨0xc0100114, 556⟩] := by
  have hm : HeapMarks ⟨(mappedKernel (allocatedPage 556)).heap, [⟨0xc0100114, 556⟩]⟩ :=
    allocatedPage_marks (by decide) (by decide +kernel)
  have hret : (processExecve (mappedKernel (allocatedPage 556)) emptyCalls (some emptyMount) []
      0xc0100114 (some ['/', 'x']) 0 0).map Prod.fst = some (-2) := by
    decide +kernel
  obtain ⟨⟨e, k'⟩, hcall, rfl⟩ := Option.map_eq_some_iff.mp hret
  have hname := lends_of_room (k := mappedKernel (allocatedPage 556)) (show 3 ≠ 0 by decide)
    (by decide +kernel) (by decide +kernel)
  have hfile := lends_of_room (k := { mappedKernel (allocatedPage 556) with
    heap := (heapAlloc (mappedKernel (allocatedPage 556)).peek (allocatedPage 556) 16).2 })
    (show sizeofFile ≠ 0 by decide) (by decide +kernel) (by decide +kernel)
  have hkeeps : LookupKeepsNothing (mappedKernel (allocatedPage 556)) emptyCalls emptyMount
      ['/', 'x'] [⟨0xc0100114, 556⟩] _ _ _ _ :=
    ⟨hname, hfile, fun _ => ⟨⟨_, rfl⟩, fun _ => rfl, hfile.live (hname.live hm)⟩,
      fun hfirst => absurd hfirst (by decide)⟩
  exact ⟨k', hcall, (failed_execve_untouched_iff
    (fun m hmount => Option.some.inj hmount ▸ emptyCalls_sound) hm ⟨_, List.mem_singleton_self _, rfl⟩
    hcall (by decide)).mpr (.inr (.inr (.inr ⟨_, _, _, _, _, _, rfl, rfl, hkeeps⟩)))⟩

/-- `sizeof(ext2_inode)`. -/
def sizeofInode : ℕ := 128

/-- A file system whose `readdir` copies the inode of the entry. -/
def inodeCalls : FsCalls where
  readdir := fun k m dir i => match m.fs.readdir dir i with
    | .ok _ => (malloc k sizeofInode).elim { k with heap := [] } Prod.snd
    | .error _ => k
  read := fun k _ _ _ _ => (0, k)

theorem inodeCalls_sound (mounts : List Mount) : inodeCalls.Sound mounts := by
  have hlost : ∀ k : Kernel, Adds k { k with heap := [] } := fun k =>
    ⟨⟨rfl, .refl _, fun _ _ => rfl⟩, fun _ hne => absurd rfl hne⟩
  refine ⟨fun k m _ dir i => ?_, fun k m _ dir i e he => ?_, fun k _ _ _ _ => .refl k⟩
  · rw [inodeCalls]
    dsimp only
    rcases m.fs.readdir dir i with e | e
    · exact .refl k
    · cases hmalloc : malloc k sizeofInode with
      | none => exact hlost k
      | some r => exact malloc_adds hmalloc
  · rw [inodeCalls]
    dsimp only
    rw [he]
    dsimp only
    cases hmalloc : malloc k sizeofInode with
    | none => exact fun _ hne => absurd rfl hne
    | some r =>
      obtain ⟨q, k'⟩ := r
      intro hsame hne live hm hm'
      rcases (malloc_kept hmalloc hsame hne hm).1 with ⟨rfl, -⟩ | ⟨-, hnew⟩
      · exact hne (malloc_zero (by decide) (by decide) hmalloc hsame)
      · have hold : HeapMarks ⟨k'.heap, [⟨q, max sizeofInode minMallocSize⟩] ++ live⟩ := hnew
        exact List.cons_ne_nil _ _ (hold.nothing_left hm')

/-- Of a path that leads nowhere the inodes of the root directory stay in memory. -/
theorem failed_execve_leaves_inodes : ¬ ∀ (k k' : Kernel) (fs : FsCalls) (root : Option Mount)
    (mounts : List Mount) (p : ℕ) (path : Option (List Char)) (argv envp : ℕ) (e : ℤ)
    (live : List Alloc), (∀ m, root = some m → fs.Sound (m :: mounts)) →
    HeapMarks ⟨k.heap, live⟩ → (∃ a ∈ live, a.ptr = p) →
    processExecve k fs root mounts p path argv envp = some (e, k') → e < 0 →
    Untouched k k' p live := by
  intro h
  have hmarks : (processExecve (mappedKernel (allocatedPage 556)) inodeCalls (some exampleRoot) []
      0xc0100114 (some ['/', 'x']) 0 0).map (fun r => (r.1, r.2.heap.map fun hb =>
        (hb.base, hb.size, hb.blockSize, decide (hb.marks 80 = 0)))) =
      some (-2, [(0xc0100000, 4076, 16, false)]) := by
    decide +kernel
  obtain ⟨⟨e, k'⟩, hcall, heq⟩ := Option.map_eq_some_iff.mp hmarks
  obtain ⟨rfl, hheap⟩ := Prod.mk.inj heq
  have huntouched := h _ k' inodeCalls (some exampleRoot) [] 0xc0100114 _ 0 0 _
    [⟨0xc0100114, 556⟩] (fun m _ => inodeCalls_sound _)
    (allocatedPage_marks (by decide) (by decide +kernel)) ⟨_, List.mem_singleton_self _, rfl⟩
    hcall (by decide)
  obtain ⟨hb, hmem, hblock⟩ := List.mem_map.mp (hheap ▸ List.mem_singleton_self _)
  obtain ⟨hbase, hsize, hcell, hmark⟩ : hb.base = 0xc0100000 ∧ hb.size = 4076 ∧ hb.blockSize = 16 ∧
      decide (hb.marks 80 = 0) = false := by
    simpa only [Prod.mk.injEq] using hblock
  have hcount : hb.blockCount = 254 := by rw [HeapBlock.blockCount, hsize, hcell]
  have hmarked := (huntouched.live.marked hb hmem 80 (by rw [hcount]; decide)).mp
    (of_decide_eq_false hmark)
  rcases hmarked with hlt | ⟨a, ha, hcov⟩
  · rw [HeapBlock.reserved, hcount, hcell] at hlt
    exact absurd hlt (by decide)
  · rw [List.mem_singleton.mp ha, HeapBlock.cell, hbase, hcell] at hcov
    exact absurd hcov.2 (by decide)

end DosKernel
