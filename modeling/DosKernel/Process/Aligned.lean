import DosKernel.Process.Realloc

/-! `malloc_align`. It pads the request by the alignment and moves the pointer up. The
allocation still begins where `malloc` put it, and `free` clears the cells from the one of
its argument on. -/

namespace DosKernel

open Lib

def mallocAlign (k : Kernel) (size align : ℕ) : Option (ℕ × Kernel) :=
  (malloc k ((size + align) % word32)).map fun r =>
    if r.1 ≠ 0 ∧ r.1 % align ≠ 0 then ((r.1 + (align - r.1 % align)) % word32, r.2) else r

/-- The same block but for the cell where the next search starts. -/
def HeapBlock.SameMarks (hb hb' : HeapBlock) : Prop := hb' = { hb with lfb := hb'.lfb }

/-- The blocks of `h` have in `h'` the marks and used counts they had, and the other blocks
of `h'` hold no allocation. -/
structure Restored (h h' : Heap) : Prop where
  kept : ∀ hb ∈ h, ∃ hb' ∈ h', hb.SameMarks hb'
  others : ∀ hb' ∈ h', (∃ hb ∈ h, hb.SameMarks hb') ∨ hb'.Empty

/-! ### A `free` inside an allocation -/

section Interior
variable {s : HeapState} {l r : Heap} {hb hb' : HeapBlock} {x n d addr : ℕ} {v : UInt8}
  {peek : ℕ → UInt8}

/-- What `heap_alloc` does to the block in which it finds room. -/
structure HeapBlock.Takes (hb hb' : HeapBlock) (addr n x : ℕ) (v : UInt8) : Prop where
  remark : hb.Remark hb' x (divUp n 16) v
  used_eq : hb'.used = hb.used + divUp n 16
  free : ∀ i < divUp n 16, hb.marks (x + i) = 0
  behind : hb.reserved ≤ x
  holds : hb'.Holds ⟨addr, n⟩ x
  mark_ne : v ≠ 0

theorem HeapMarks.heapAlloc_takes (hs : HeapMarks s) (hn : 1 ≤ n)
    (hne : (heapAlloc peek s.heap n).1 ≠ 0) : ∃ l hb r hb' x v, s.heap = l ++ hb :: r ∧
      (heapAlloc peek s.heap n).2 = l ++ hb' :: r ∧
      hb.Takes hb' (heapAlloc peek s.heap n).1 n x v := by
  rcases heapAlloc_cases peek s.heap n with h0 | ⟨l, hb, r, p, hb', hheap, hsome, heq⟩
  · rw [h0] at hne
    exact absurd rfl hne
  have hmem := mem_block hheap
  obtain ⟨x, v, hp, hx, hm, hused, hfree, hv0, -, hright⟩ :=
    heapAllocBlock_spec (hs.made hb hmem) (hs.marks_zero_ne hmem) hn hsome
  have hcells : 1 ≤ divUp n 16 := by rw [divUp_sixteen]; omega
  have hfirst := hfree 0 (by omega)
  have hlast := hfree (divUp n 16 - 1) (by omega)
  rw [Nat.add_zero] at hfirst
  have hbehind := hs.reserved_le hmem hfirst.1 hfirst.2
  refine ⟨l, hb, r, hb', x, v, hheap, by rw [heq], hm, hused, fun i hi => (hfree i hi).2, hbehind,
    ?_, hv0⟩
  rw [heq]
  exact hm.holds_new (a := ⟨p, n⟩) hp hcells hbehind (by simp only [Alloc.cells]; omega) hright

theorem HeapBlock.Takes.cells_pos (h : hb.Takes hb' addr n x v) : 1 ≤ divUp n 16 := h.holds.cells_pos

/-- Freed from its first cell on, the block is as before. -/
theorem HeapBlock.Takes.free_same (h : hb.Takes hb' addr n x v) (hmade : hb'.Made)
    (hbound : hb'.used ≤ hb'.blockCount) (hd : d < 16) :
    hb.SameMarks (heapFreeBlock hb' (addr + d)) := by
  have hpos := h.cells_pos
  have hused := h.used_eq
  have hfree := heapFreeBlock_at (a := ⟨addr, n⟩) (d := d) hmade h.holds
    (by simp only [Alloc.cells]; omega) (by simp only [Alloc.cells]; omega) hbound
  have hmarks : setRange hb'.marks x (divUp n 16) 0 = hb.marks := by
    funext i
    by_cases hi : x ≤ i ∧ i < x + divUp n 16
    · have hzero := h.free (i - x) (by omega)
      rw [Nat.add_sub_cancel' hi.1] at hzero
      rw [setRange_of_mem _ _ hi, hzero]
    · rw [setRange_of_not_mem _ _ hi, h.remark.marks_eq, setRange_of_not_mem _ _ hi]
  rw [Nat.div_eq_of_lt hd, Nat.add_zero, Nat.sub_zero] at hfree
  simp only [Alloc.cells] at hfree
  rw [HeapBlock.SameMarks, hfree, hmarks, hused, Nat.add_sub_cancel]
  simp only [h.remark.base_eq, h.remark.size_eq, h.remark.blockSize_eq]

end Interior

structure HeapBlock.Marked (hb hb' : HeapBlock) (x : ℕ) : Prop where
  base_eq : hb'.base = hb.base
  reserved_eq : hb'.reserved = hb.reserved
  mark_ne : hb'.marks x ≠ 0

section Restore
variable {k k' : Kernel} {held : List Alloc} {added l r h : Heap} {hb hb' : HeapBlock}
  {x n d addr : ℕ} {v : UInt8}

theorem HeapBlock.Takes.marked (ht : hb.Takes hb' addr n x v) : hb.Marked hb' x := by
  have hpos := ht.cells_pos
  refine ⟨ht.remark.base_eq, ht.remark.reserved_eq, ?_⟩
  rw [ht.remark.marks_eq, setRange_of_mem _ _ (by omega)]
  exact ht.mark_ne

/-- Freed from a later cell on, the first cell keeps its mark. -/
theorem HeapBlock.Takes.marked_free (ht : hb.Takes hb' addr n x v) (hmade : hb'.Made)
    (hbound : hb'.used ≤ hb'.blockCount) (hd : 16 ≤ d) (hin : d < 16 * divUp n 16) :
    hb.Marked (heapFreeBlock hb' (addr + d)) x := by
  have hused := ht.used_eq
  have hfree := heapFreeBlock_at (a := ⟨addr, n⟩) (d := d) hmade ht.holds hin
    (by simp only [Alloc.cells]; omega) hbound
  dsimp only at hfree
  rw [hfree]
  refine ⟨ht.remark.base_eq, ht.remark.reserved_eq, ?_⟩
  dsimp only
  rw [setRange_of_not_mem _ _ (by omega)]
  exact ht.marked.mark_ne

/-- Two blocks at one address are the same block. -/
theorem HeapMarks.eq_of_base {s : HeapState} (hs : HeapMarks s) (h1 : hb ∈ s.heap)
    (h2 : hb' ∈ s.heap) (hbase : hb.base = hb'.base) : hb = hb' := by
  by_contra hne
  have hapart := hs.apart.forall h1 h2 hne
  have hp1 := (hs.made hb h1).page
  have hp2 := (hs.made hb' h2).page
  rw [HeapBlock.Apart, hbase] at hapart
  omega

theorem HeapBlock.Marked.not_restored (hmark : hb.Marked hb' x)
    (hm : HeapMarks ⟨added ++ k.heap, held⟩) (hmem : hb ∈ added ++ k.heap)
    (hzero : hb.marks x = 0) (hbehind : hb.reserved ≤ x) (hmem' : hb' ∈ h) :
    ¬ Restored k.heap h := by
  intro hr
  rcases hr.others hb' hmem' with ⟨b, hbmem, hsame⟩ | hempty
  · rw [HeapBlock.SameMarks] at hsame
    have hbase : b.base = hb.base := by
      rw [← hmark.base_eq, hsame]
    obtain rfl := hm.eq_of_base (List.mem_append_right added hbmem) hmem hbase
    have hne := hmark.mark_ne
    rw [hsame] at hne
    exact hne hzero
  · have hlt := (hempty.marks_ne_iff x).mp hmark.mark_ne
    rw [hmark.reserved_eq] at hlt
    omega

theorem HeapBlock.SameMarks.restored (hsame : hb.SameMarks hb')
    (hempty : ∀ b ∈ added, b.Empty) (hheap : added ++ k.heap = l ++ hb :: r) :
    Restored k.heap (l ++ hb' :: r) := by
  have hself : ∀ b : HeapBlock, b.SameMarks b := fun b => rfl
  have hfrom : ∀ b' ∈ l ++ hb' :: r, ∃ b ∈ added ++ k.heap, b.SameMarks b' := by
    intro b' hb'
    rw [hheap]
    rcases mem_middle.mp hb' with rfl | hrest
    · exact ⟨hb, mem_middle.mpr (.inl rfl), hsame⟩
    · exact ⟨b', mem_middle.mpr (.inr hrest), hself b'⟩
  refine ⟨fun b hmem => ?_, fun b' hmem => ?_⟩
  · have hmem' := List.mem_append_right added hmem
    rw [hheap] at hmem'
    rcases mem_middle.mp hmem' with rfl | hrest
    · exact ⟨hb', mem_middle.mpr (.inl rfl), hsame⟩
    · exact ⟨b, mem_middle.mpr (.inr hrest), hself b⟩
  · obtain ⟨b, hb, hb'⟩ := hfrom b' hmem
    rcases List.mem_append.mp hb with hadded | hold
    · have he := hempty b hadded
      rw [HeapBlock.SameMarks] at hb'
      rw [hb']
      exact .inr ⟨he.marks_ne_iff, he.used_eq⟩
    · exact .inl ⟨b, hold, hb'⟩

/-- Some block owns the bytes of an allocation unless its own ends with the address space. -/
theorem HeapBlock.Holds.any_owns_iff {live : List Alloc} {a : Alloc} (hx : hb.Holds a x)
    (hm : HeapMarks ⟨l ++ hb :: r, live⟩) (hd : d < 16 * a.cells) :
    (∃ b ∈ l ++ hb :: r, b.owns (a.ptr + d) = true) ↔
      hb.base + sizeofHeapBlock + hb.size < word32 := by
  have hmade := hm.made hb (mem_middle.mpr (.inl rfl))
  obtain ⟨h1, h2⟩ := hx.bounds hmade hd
  rw [← hx.owns_iff hmade hd]
  constructor
  · rintro ⟨b, hmem, howns⟩
    rcases mem_middle.mp hmem with rfl | hother
    · exact howns
    · rw [(apart_of_mem hm.apart hother).not_owns h1 h2] at howns
      cases howns
  · intro howns
    exact ⟨hb, mem_middle.mpr (.inl rfl), howns⟩

/-- `free` of an address inside a new allocation undoes it exactly if the address is in the
first cell and the block does not end with the address space. -/
theorem HeapBlock.Takes.restored_iff (ht : hb.Takes hb' addr n x v)
    (hm : HeapMarks ⟨added ++ k.heap, held⟩) (hm' : HeapMarks ⟨l ++ hb' :: r, ⟨addr, n⟩ :: held⟩)
    (hempty : ∀ b ∈ added, b.Empty) (hheap : added ++ k.heap = l ++ hb :: r)
    (hd : d < 16 * divUp n 16) :
    Restored k.heap (heapFree (l ++ hb' :: r) (addr + d)).2 ↔
      d < 16 ∧ hb'.base + sizeofHeapBlock + hb'.size < word32 := by
  have hpos := ht.cells_pos
  have hmem : hb ∈ added ++ k.heap := by
    rw [hheap]
    exact mem_middle.mpr (.inl rfl)
  have hmem' : hb' ∈ l ++ hb' :: r := mem_middle.mpr (.inl rfl)
  have hmade' := hm'.made hb' hmem'
  have hbound := hm'.used_le hmem'
  have hzero := ht.free 0 (by omega)
  rw [Nat.add_zero] at hzero
  obtain ⟨h1, h2⟩ := ht.holds.bounds hmade' (d := d) hd
  have hother : ∀ b, b ∈ l ∨ b ∈ r → b.owns (addr + d) = false := fun b hb =>
    (apart_of_mem hm'.apart hb).not_owns h1 h2
  by_cases hown : hb'.base + sizeofHeapBlock + hb'.size < word32
  · have howns := (ht.holds.owns_iff hmade' (d := d) hd).mpr hown
    dsimp only at howns
    rw [heapFree_append (fun b hb => hother b (.inl hb)) howns]
    dsimp only
    by_cases hfirst : d < 16
    · exact iff_of_true ((ht.free_same hmade' hbound hfirst).restored hempty hheap) ⟨hfirst, hown⟩
    · refine iff_of_false ?_ fun h => hfirst h.1
      exact (ht.marked_free hmade' hbound (by omega) hd).not_restored hm hmem hzero ht.behind
        (mem_middle.mpr (.inl rfl))
  · have hfree : heapFree (l ++ hb' :: r) (addr + d) = (false, l ++ hb' :: r) := by
      refine heapFree_none fun b hb => ?_
      rcases mem_middle.mp hb with rfl | hb
      · rw [← Bool.not_eq_true]
        exact mt (ht.holds.owns_iff hmade' (d := d) hd).mp hown
      · exact hother b hb
    rw [hfree]
    exact iff_of_false (ht.marked.not_restored hm hmem hzero ht.behind hmem') fun h => hown h.2

end Restore

/-! ### The aligned pointer -/

/-- What `malloc_align` has to do: the pointer is aligned, the memory lies in what `malloc`
returned for the padded size, and `free` of the pointer undoes the allocation. -/
structure AlignedUndone (k : Kernel) (size align p : ℕ) (k' : Kernel) : Prop where
  aligned : p % align = 0
  inside : ∃ addr, malloc k ((size + align) % word32) = some (addr, k') ∧ addr ≤ p ∧
    p + size ≤ addr + 16 * divUp (max ((size + align) % word32) minMallocSize) 16
  restored : Restored k.heap (free k' p).heap

/-- The padded size does not wrap, the memory that `malloc` finds for it has an aligned address
among its first 16, and the block it lies in does not end with the address space. -/
def AlignedInCell (k : Kernel) (size align : ℕ) : Prop :=
  size + align < word32 ∧ ∀ addr k', malloc k (size + align) = some (addr, k') →
    (addr % align = 0 ∨ align - addr % align < 16) ∧ ∃ hb ∈ k'.heap, hb.owns addr = true

section Align
variable {s : HeapState} {k k' : Kernel} {size align p : ℕ}

def alignUp (addr align : ℕ) : ℕ := if addr % align = 0 then 0 else align - addr % align

theorem alignUp_lt (h : 0 < align) (addr : ℕ) : alignUp addr align < align := by
  have hlt := Nat.mod_lt addr h
  rw [alignUp]
  split_ifs <;> omega

theorem alignUp_mod (h : 0 < align) (addr : ℕ) : (addr + alignUp addr align) % align = 0 := by
  have hlt := Nat.mod_lt addr h
  rw [alignUp]
  split_ifs with h0
  · exact h0
  · rw [Nat.add_mod, Nat.mod_eq_of_lt (show align - addr % align < align by omega),
      Nat.add_sub_cancel' hlt.le, Nat.mod_self]

theorem mallocAlign_eq (h : mallocAlign k size align = some (p, k')) (hp : p ≠ 0) :
    ∃ addr, malloc k ((size + align) % word32) = some (addr, k') ∧ addr ≠ 0 ∧
      p = (addr + alignUp addr align) % word32 := by
  obtain ⟨⟨addr, k₁⟩, hmalloc, heq⟩ := Option.map_eq_some_iff.mp h
  have hlt := malloc_lt hmalloc
  dsimp only at heq
  split_ifs at heq with hup
  · obtain ⟨rfl, rfl⟩ := Prod.mk.inj heq
    exact ⟨addr, hmalloc, hup.1, by rw [alignUp, if_neg hup.2]⟩
  · obtain ⟨rfl, rfl⟩ := Prod.mk.inj heq
    refine ⟨addr, hmalloc, hp, ?_⟩
    have h0 : addr % align = 0 := by
      by_contra hne
      exact hup ⟨hp, hne⟩
    rw [alignUp, if_pos h0, Nat.add_zero, Nat.mod_eq_of_lt hlt]

/-- A padded size that wraps asks for less memory than the size. -/
theorem padded_short (hle : align ≤ 2147483648) (hlt : size < word32)
    (hwrap : ¬ size + align < word32) :
    16 * divUp (max ((size + align) % word32) minMallocSize) 16 < size := by
  have hcut : (size + align) % word32 = size + align - word32 := by
    rw [Nat.mod_eq_sub_mod (by omega), Nat.mod_eq_of_lt (by rw [word32] at *; omega)]
  rw [divUp_sixteen, hcut, minMallocSize]
  rw [word32] at *
  omega

/-- The pointer of `malloc_align` can be freed, with everything back as it was, exactly if it
is in the first cell of its allocation. -/
theorem mallocAlign_undone_iff {ops : List HeapOp}
    (hrun : Run heapStep Anything { heap := heapInit, live := [] } ops s) (hk : k.heap = s.heap)
    (hbacked : Backed k) (hsize : 1 ≤ size) (hlt : size < word32)
    (halign : ∃ e < 32, align = 2 ^ e) (h : mallocAlign k size align = some (p, k'))
    (hp : p ≠ 0) : AlignedUndone k size align p k' ↔ AlignedInCell k size align := by
  obtain ⟨e, he, rfl⟩ := halign
  have hpos : 0 < 2 ^ e := Nat.pos_of_ne_zero (by positivity)
  have hle : 2 ^ e ≤ 2147483648 := Nat.pow_le_pow_right (by decide) (show e ≤ 31 by omega)
  have hdvd : 2 ^ e ∣ word32 := Nat.pow_dvd_pow 2 (show e ≤ 32 by omega)
  obtain ⟨addr, hmalloc, haddr, rfl⟩ := mallocAlign_eq h hp
  obtain ⟨held, hm, -⟩ := heapKept_of_run hrun
  rw [← hk] at hm
  have hn : 1 ≤ max ((size + 2 ^ e) % word32) minMallocSize := by rw [minMallocSize]; omega
  obtain ⟨added, peek, hempty, hadded, halloc⟩ := malloc_found hm hbacked hmalloc haddr
  obtain ⟨hm', -⟩ := malloc_spec hm hbacked hmalloc haddr
  have hne : (heapAlloc peek (added ++ k.heap) (max ((size + 2 ^ e) % word32) minMallocSize)).1 ≠ 0 := by
    rw [halloc]
    exact haddr
  obtain ⟨l, hb, r, hb', x, v, hheap, hheap', htakes⟩ := hadded.heapAlloc_takes hn hne
  rw [halloc] at hheap' htakes
  dsimp only at hheap hheap' htakes
  have htop := hm'.top_le List.mem_cons_self
  have hcells := Alloc.size_le ⟨addr, max ((size + 2 ^ e) % word32) minMallocSize⟩
  have hup := alignUp_lt hpos addr
  have hmod := alignUp_mod hpos addr
  rw [hheap'] at hm'
  simp only [Alloc.cells] at htop hcells
  have hcount := divUp_sixteen (max ((size + 2 ^ e) % word32) minMallocSize)
  by_cases hwrap : size + 2 ^ e < word32
  · rw [Nat.mod_eq_of_lt hwrap] at hmalloc hm' htakes htop hcells hcount hn
    have hfit : size + 2 ^ e ≤ max (size + 2 ^ e) minMallocSize := le_max_left _ _
    have hp' : (addr + alignUp addr (2 ^ e)) % word32 = addr + alignUp addr (2 ^ e) :=
      Nat.mod_eq_of_lt (by omega)
    have hiff := htakes.restored_iff hadded hm' hempty hheap
      (d := alignUp addr (2 ^ e)) (by omega)
    have hfree : (free k' (addr + alignUp addr (2 ^ e))).heap =
        (heapFree (l ++ hb' :: r) (addr + alignUp addr (2 ^ e))).2 := by
      rw [free, if_neg (by omega), ← hheap']
    have hfirst : alignUp addr (2 ^ e) < 16 ↔
        addr % 2 ^ e = 0 ∨ 2 ^ e - addr % 2 ^ e < 16 := by
      rw [alignUp]
      split_ifs with h0
      · simp [h0]
      · simp [h0]
    have howner := htakes.holds.any_owns_iff hm' (d := 0) (by simp only [Alloc.cells]; omega)
    rw [Nat.add_zero, ← hheap'] at howner
    dsimp only at howner
    rw [hp', AlignedInCell]
    rw [← hfree, hfirst, ← howner] at hiff
    constructor
    · intro h
      refine ⟨hwrap, fun addr' k₁ hmalloc' => ?_⟩
      rw [hmalloc] at hmalloc'
      obtain ⟨rfl, rfl⟩ := Prod.mk.inj (Option.some.inj hmalloc')
      exact hiff.mp h.restored
    · intro h
      refine ⟨hmod, ⟨addr, ?_, by omega, ?_⟩, hiff.mpr (h.2 addr k' hmalloc)⟩
      · rw [Nat.mod_eq_of_lt hwrap, hmalloc]
      · rw [Nat.mod_eq_of_lt hwrap]
        omega
  · -- less memory was asked for than `size`
    refine iff_of_false (fun h => ?_) fun h => hwrap h.1
    obtain ⟨addr', -, hge, hin⟩ := h.inside
    have hshort := padded_short hle hlt hwrap
    omega

end Align

theorem emptyPage_run : Run heapStep Anything { heap := heapInit, live := [] }
    [.addBlock 0xc0100000 4096] ⟨emptyPage, []⟩ := by
  refine .single trivial ?_
  rw [emptyPage]
  rfl

theorem mallocAlign_undone_of_cell : ∃ k', mallocAlign (mappedKernel emptyPage) 16 16 =
    some (0xc0100120, k') ∧ AlignedUndone (mappedKernel emptyPage) 16 16 0xc0100120 k' := by
  have hmalloc : (malloc (mappedKernel emptyPage) 32).map
      (fun r => (r.1, r.2.heap.any (·.owns 0xc0100114))) = some (0xc0100114, true) := by
    decide +kernel
  have halign : (mallocAlign (mappedKernel emptyPage) 16 16).map Prod.fst = some 0xc0100120 := by
    decide +kernel
  obtain ⟨⟨p, k'⟩, hsome, rfl⟩ := Option.map_eq_some_iff.mp halign
  refine ⟨k', hsome, (mallocAlign_undone_iff emptyPage_run rfl (mappedKernel_backed _) (by decide)
    (by decide) ⟨4, by decide, rfl⟩ hsome (by decide)).mpr ⟨by decide, fun addr k₁ h => ?_⟩⟩
  rw [show 16 + 2 ^ 4 = 32 from rfl] at h
  rw [h, Option.map_some] at hmalloc
  obtain ⟨rfl, howns⟩ := Prod.mk.inj (Option.some.inj hmalloc)
  exact ⟨.inr (by decide), List.any_eq_true.mp howns⟩

/-- With an alignment of 64 the first two cells stay marked after `free`. -/
theorem mallocAlign_not_undone : ¬ ∀ (ops : List HeapOp) (s : HeapState) (k k' : Kernel)
    (size align p : ℕ), Run heapStep Anything { heap := heapInit, live := [] } ops s →
    k.heap = s.heap → Backed k → 1 ≤ size → size < word32 → (∃ e < 32, align = 2 ^ e) →
    mallocAlign k size align = some (p, k') → p ≠ 0 → AlignedUndone k size align p k' := by
  intro h
  have hused : (mallocAlign (mappedKernel emptyPage) 16 64).map
      (fun r => (r.1, (free r.2 r.1).heap.map HeapBlock.used)) = some (0xc0100140, [18]) := by
    decide +kernel
  have hbefore : emptyPage.map HeapBlock.used = [16] := by decide +kernel
  obtain ⟨⟨p, k'⟩, hsome, heq⟩ := Option.map_eq_some_iff.mp hused
  obtain ⟨rfl, hafter⟩ := Prod.mk.inj heq
  have hundone := h _ _ (mappedKernel emptyPage) k' 16 64 _ emptyPage_run rfl
    (mappedKernel_backed _) (by decide) (by decide) ⟨6, by decide, rfl⟩ hsome (by decide)
  have hmem : 16 ∈ emptyPage.map HeapBlock.used := by
    rw [hbefore]
    exact List.mem_singleton_self 16
  obtain ⟨hb, hb₀, hused₀⟩ := List.mem_map.mp hmem
  obtain ⟨hb', hmem', hsame⟩ := hundone.restored.kept hb hb₀
  have hused' : hb'.used = 16 := by
    rw [HeapBlock.SameMarks] at hsame
    rw [hsame]
    exact hused₀
  have hin := List.mem_map_of_mem (f := HeapBlock.used) hmem'
  rw [hafter, hused'] at hin
  exact absurd hin (by decide)

end DosKernel
