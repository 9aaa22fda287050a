import DosKernel.Process.ExecFrames
import DosKernel.Process.FailedExec
import DosKernel.Process.Vectors

/-! What the new program sees of the arguments of `process_execve`. Both vectors fit exactly if
their pointers and strings do not pass the ends of their pages; the copy stops at an empty string,
and a read across the end of a page goes on behind its frame. -/

namespace DosKernel

open Lib Vfs

/-! ### One vector -/

def stringBytes (args : List (List UInt8)) : ℕ := (args.map fun str => str.length + 1).sum

/-- The number of strings before the first empty one. -/
def stopAt : List (List UInt8) → ℕ
  | [] => 0
  | str :: args => if str = [] then 0 else stopAt args + 1

section Lists
variable {args : List (List UInt8)}

theorem lenAt_cons_succ (str : List UInt8) (args : List (List UInt8)) (i : ℕ) :
    lenAt (str :: args) (i + 1) = lenAt args i := rfl

theorem stops_stopAt (args : List (List UInt8)) : Stops (lenAt args) args.length (stopAt args) := by
  induction args with
  | nil => exact ⟨le_rfl, fun _ hj => absurd hj (Nat.not_lt_zero _), fun h => absurd h (Nat.lt_irrefl 0)⟩
  | cons str args ih =>
    rw [stopAt]
    split_ifs with hstr
    · exact ⟨Nat.zero_le _, fun _ hj => absurd hj (Nat.not_lt_zero _), fun _ => by rw [hstr]; rfl⟩
    · refine ⟨Nat.succ_le_succ ih.le, fun j hj => ?_, fun h => ih.zero (Nat.lt_of_succ_lt_succ h)⟩
      cases j with
      | zero => exact fun h => hstr (List.length_eq_zero_iff.mp h)
      | succ j => exact ih.pos j (Nat.lt_of_succ_lt_succ hj)

theorem stringStart_length (args : List (List UInt8)) :
    stringStart (lenAt args) args.length = stringBytes args := by
  induction args with
  | nil => rfl
  | cons str args ih =>
    rw [stringStart, List.length_cons, Finset.sum_range_succ']
    simp only [lenAt_cons_succ]
    rw [← stringStart, ih, Nat.add_comm]
    rfl

theorem stopAt_eq_iff : args.length = stopAt args ↔ [] ∉ args := by
  induction args with
  | nil => simp [stopAt]
  | cons str args ih =>
    rw [stopAt]
    split_ifs with hstr
    · simp [hstr]
    · rw [List.length_cons, Nat.add_right_cancel_iff, ih]
      simp [Ne.symm hstr]

/-- The loop comes to the last string exactly if only that one may be empty. -/
theorem length_le_stopAt_iff : args.length ≤ stopAt args + 1 ↔ [] ∉ args.dropLast := by
  induction args with
  | nil => simp [stopAt]
  | cons str args ih =>
    cases args with
    | nil => simp
    | cons str' args =>
      rw [List.dropLast_cons_cons, stopAt, List.mem_cons]
      split_ifs with hstr
      · simp [hstr]
      · rw [List.length_cons, Nat.add_le_add_iff_right, ih]
        simp [Ne.symm hstr]

/-- The loop passes on all strings, and in the pages, exactly if they fit and only the last one
may be empty. -/
theorem vector_fits_iff (args : List (List UInt8)) :
    (4 * pointersWritten args.length (stopAt args) ≤ 4096 ∧
        stringStart (lenAt args) (stopAt args) ≤ 4096) ∧
      (args.length = stopAt args ∨ args.length = stopAt args + 1 ∧
        stringStart (lenAt args) (stopAt args) < 4096) ↔
    args.length ≤ 1024 ∧ [] ∉ args.dropLast ∧ stringBytes args ≤ 4096 := by
  have hstop := stops_stopAt args
  have hle := hstop.le
  have hnext := stringStart_succ (lenAt args) (stopAt args)
  rw [← length_le_stopAt_iff, ← stringStart_length, pointersWritten]
  rcases Nat.lt_or_ge (stopAt args) args.length with hlt | hge
  · rw [if_pos hlt]
    rw [hstop.zero hlt] at hnext
    constructor
    · rintro ⟨⟨h1, -⟩, h2⟩
      obtain ⟨h3, h4⟩ := h2.resolve_left (by omega)
      rw [h3, hnext]
      omega
    · rintro ⟨h1, h2, h3⟩
      have h4 : args.length = stopAt args + 1 := by omega
      rw [h4, hnext] at h3
      omega
  · have h4 : args.length = stopAt args := by omega
    rw [if_neg (by omega), ← h4]
    omega

end Lists

/-- A vector was copied to new pages, in the space that `s` became. -/
structure VectorDone (b : Bitmap) (m : Memory) (pd old vec virt : ℕ) (args : List (List UInt8))
    (s : Mmu) (page strs : ℕ) (s' : Mmu) : Prop where
  space : NewSpace b m pd s'
  pageData : DataPage b pd s' page
  strsData : DataPage b pd s' strs
  view : VectorView s'.mem pd virt page strs
  copied : CopiedPages m old page strs (virt + 4096) (ptrAt m old vec) (lenAt args)
    (pointersWritten args.length (stopAt args)) (stopAt args) s'.mem
  data : ∀ {q}, DataPage b pd s q → DataPage b pd s' q ∧ q ≠ page ∧ q ≠ strs ∧
    SamePage s'.mem s.mem q
  leads : ∀ {v p}, v < word32 → v / 4096 ≠ virt / 4096 → v / 4096 ≠ (virt + 4096) / 4096 →
    LeadsTo s.mem pd v p → LeadsTo s'.mem pd v p

section Vector
variable {b : Bitmap} {m : Memory} {s : Mmu} {pd old vec virt : ℕ} {args : List (List UInt8)}

/-- The loop only changes the memory. -/
theorem map_pages (copy : ℕ → ℕ → Memory → Option (ℕ × Memory)) (s : Mmu) (m : Memory)
    (r : ℕ × ℕ × Mmu) {page strs : ℕ} (hr : r = (page, strs, { s with mem := m })) :
    (copy page strs m).map (fun x => (x.1, { s with mem := x.2 })) =
      (copy r.1 r.2.1 r.2.2.mem).map fun x => (x.1, { r.2.2 with mem := x.2 }) := by
  rw [hr]

theorem execVector_eq (s : Mmu) (old pd vec virt : ℕ) : execVector s old pd vec virt =
    (copyStrings old vec (vectorPages s pd virt).1 (vectorPages s pd virt).2.1
      (virt + bitmapPageSize) 2147483648 0 0 (vectorPages s pd virt).2.2.mem).map fun r =>
        (r.1, { (vectorPages s pd virt).2.2 with mem := r.2 }) := by
  rw [execVector]
  exact map_pages (fun page strs => copyStrings old vec page strs (virt + bitmapPageSize)
    2147483648 0 0) _ _ _ rfl

/-- A new vector: where the copy writes, and what it leaves if that is in its pages. -/
theorem execVector_spec (h : NewSpace b m pd s) (hold : Occupied b m old)
    (hv : VectorAt m old vec args)
    (hbehind : ∀ i < args.length, BehindUsed b m old (ptrAt m old vec i) (lenAt args i))
    (haligned : virt % 4096 = 0) (htop : virt + 8192 < word32)
    (hindex : pdIndex (virt + 4096) = pdIndex virt)
    (hne : (bitmapAllocPage (bitmapAllocPage s.bitmap).2).1 ≠ 0)
    (ht : (entryAt s.mem (pd + 4 * pdIndex virt)).present = true ∨
      ∃ p, (bitmapAllocPage (bitmapAllocPage s.bitmap).2).2.Spare p) :
    (CopiesInside old vec (vectorPages s pd virt).1 (vectorPages s pd virt).2.1 (virt + 4096)
        2147483648 0 0 (vectorPages s pd virt).2.2.mem ↔
      4 * pointersWritten args.length (stopAt args) ≤ 4096 ∧
        stringStart (lenAt args) (stopAt args) ≤ 4096) ∧
    (4 * pointersWritten args.length (stopAt args) ≤ 4096 →
      stringStart (lenAt args) (stopAt args) ≤ 4096 → ∃ s',
        execVector s old pd vec virt = some (stopAt args, s') ∧
        s'.bitmap = (vectorPages s pd virt).2.2.bitmap ∧
        VectorDone b m pd old vec virt args s (vectorPages s pd virt).1
          (vectorPages s pd virt).2.1 s') := by
  obtain ⟨hspace, hother⟩ := vectorPages_spec h htop.le hindex hne ht
  rw [execVector_eq]
  generalize hfuel : 2147483648 = fuel
  generalize vectorPages s pd virt = r at hspace hother ⊢
  obtain ⟨page, strs, s₁⟩ := r
  dsimp only at hspace hother ⊢
  have hpageIs := hspace.pageData.marked.isPage hspace.space.region
  have hstrsIs := hspace.strsData.marked.isPage hspace.space.region
  have hp : CopyPages b page strs (virt + 4096) := ⟨hpageIs, hstrsIs, hspace.pageData.spare,
    hspace.strsData.spare, hspace.ne, by omega⟩
  have hc := hv.reads hold hbehind
  have hlt : args.length < fuel := by
    have hlast := hv.top
    rw [word32] at hlast
    omega
  have h₀ : Copied b m old page strs (virt + 4096) (ptrAt m old vec) (lenAt args) s₁.mem 0 0 s₁.mem :=
    ⟨⟨fun j hj => absurd hj (Nat.not_lt_zero j), fun j hj => absurd hj (Nat.not_lt_zero j),
      fun j hj => absurd hj (Nat.not_lt_zero j), fun x _ hx => hspace.pageZero x hx,
      fun x _ hx => hspace.strsZero x hx⟩, fun hq hnot => hspace.space.same hq hnot,
      fun _ _ _ _ _ _ => rfl⟩
  refine ⟨copiesInside_iff hp hc h₀ (stops_stopAt args) hlt, fun hin hend => ?_⟩
  obtain ⟨m', hrun, hcopied⟩ := copyStrings_eq hp hc h₀ (stops_stopAt args) hlt hin hend
  rw [bitmapPageSize, hrun]
  refine ⟨_, rfl, rfl, ?_⟩
  have hwritten : Written b m pd s₁ m' := by
    refine hspace.space.write fun hq hnot => hcopied.kept hq ?_ ?_
    · rintro rfl
      exact hnot hspace.pageData
    · rintro rfl
      exact hnot hspace.strsData
  refine ⟨hwritten.space, hwritten.data hspace.pageData, hwritten.data hspace.strsData,
    ⟨haligned, htop.le, hwritten.leads (by omega) hspace.pageLeads,
      hwritten.leads (by omega) hspace.strsLeads⟩, hcopied.toCopiedPages, fun hq => ?_,
    fun hlt hv hv' hleads => hwritten.leads hlt (hspace.leads hlt hv hv' hleads)⟩
  obtain ⟨hqp, hqs⟩ := hother hq
  have hq' := hq.marked.isPage h.region
  exact ⟨hwritten.data (hspace.data hq), hqp, hqs,
    (hcopied.kept hq' hqp hqs).trans (hspace.kept hq hqp hqs)⟩

end Vector

/-! ### Both vectors -/

def Kernel.stackWord (k : Kernel) (p i : ℕ) : ℕ :=
  mmuReadl k.mmu.mem (k.procs p).pdt ((k.procs p).r.useresp + 4 * i)

/-- The program is started as `_start(argc, argv, envp)`: behind the word for a return address it
finds the number of its arguments, their vector with `NULL` behind it, and that of `envp`. -/
structure ArgumentsPassed (k : Kernel) (p : ℕ) (args env : List (List UInt8)) : Prop where
  argc : k.stackWord p 1 = args.length
  argv : PassedAt k.mmu.mem (k.procs p).pdt (k.stackWord p 2) args
  inside : 4 * args.length + 4 ≤ 4096
  mapped : mmuIsMapped k.mmu.mem (k.procs p).pdt (k.stackWord p 2 + 4 * args.length) = true
  null : mmuReadl k.mmu.mem (k.procs p).pdt (k.stackWord p 2 + 4 * args.length) = 0
  envp : PassedAt k.mmu.mem (k.procs p).pdt (k.stackWord p 3) env

/-- Every write of the two loops lies in the page that it is meant for. -/
def ArgumentsInside (k : Kernel) (p addr argv envp : ℕ) : Prop :=
  let image := execImage k.mmu addr
  let old := (k.procs p).pdt
  let args := vectorPages image.2.2 image.1 0xb00000
  CopiesInside old argv args.1 args.2.1 0xb01000 2147483648 0 0 args.2.2.mem ∧
    ∀ r, execVector image.2.2 old image.1 argv 0xb00000 = some r →
      let env := vectorPages r.2 image.1 0xb02000
      CopiesInside old envp env.1 env.2.1 0xb03000 2147483648 0 0 env.2.2.mem

/-- A frame is found for each of the four pages: one is left for the last of them. -/
def ArgumentsRoom (k : Kernel) (addr : ℕ) : Prop :=
  let image := execImage k.mmu addr
  (bitmapAllocPage
    (bitmapAllocPage (vectorPages image.2.2 image.1 0xb00000).2.2.bitmap).2).1 ≠ 0

/-- The pointers and the strings that are copied do not pass the ends of their pages. -/
def CopyFits (args : List (List UInt8)) : Prop :=
  4 * pointersWritten args.length (stopAt args) ≤ 4096 ∧
    stringStart (lenAt args) (stopAt args) ≤ 4096

section Both
variable {b : Bitmap} {m : Memory} {s : Mmu} {k : Kernel} {p addr pd virt argv envp : ℕ}
  {args env : List (List UInt8)}

theorem vectorPages_later (hr : s.bitmap.Region) (pd virt : ℕ) :
    (bitmapAllocPage (bitmapAllocPage s.bitmap).2).2.Region ∧
      (bitmapAllocPage (bitmapAllocPage s.bitmap).2).2.Later (vectorPages s pd virt).2.2.bitmap := by
  have h₁ := (bitmapAllocPage_takes hr).1.region hr
  have h₂ := (bitmapAllocPage_takes h₁).1.region h₁
  have hmap := mmuMapPages_later (s := { s with
    bitmap := (bitmapAllocPage (bitmapAllocPage s.bitmap).2).2 }) h₂ pd (bitmapAllocPage s.bitmap).1
    virt 1 true true
  have hmap' := mmuMapPages_later (hmap.region h₂) pd (bitmapAllocPage (bitmapAllocPage s.bitmap).2).1
    (virt + bitmapPageSize) 1 true true
  rw [pages_bitmap (r := vectorPages s pd virt) rfl]
  exact ⟨h₂, hmap.trans hmap'⟩

theorem execImage_later (hr : s.bitmap.Region) (addr : ℕ) :
    s.bitmap.Later (execImage s addr).2.2.bitmap := by
  have hpd : s.bitmap.Later (mmuNewPageDirectory s).2.bitmap := (bitmapAllocPage_takes hr).1
  have hstart : (mmuNewPageDirectory s).2.bitmap.Later (imageStart s).bitmap :=
    (bitmapAllocContiguousPages_takes (hpd.region hr) (show 1 ≤ 2 by decide)).1
  have hbegin := hpd.trans hstart
  rw [execImage_eq]
  dsimp only
  generalize (addr + (imageStart s).view.load (addr + 28) 4) % word32 = ph
  have hsegments := hbegin.trans
    (mapSegments_later (hbegin.region hr) (mmuNewPageDirectory s).1 addr 65536 1 ph)
  exact hsegments.trans (mapStackAndHeap_later (hsegments.region hr) _ _).2

/-- What the room for the last page says about the others. -/
theorem ArgumentsRoom.image (h : ArgumentsRoom k addr) (hr : k.mmu.bitmap.Region)
    (h0 : k.mmu.bitmap.start ≠ 0) : ∃ p,
      (execImage k.mmu addr).2.2.bitmap.Spare p ∧
      (bitmapAllocPage (bitmapAllocPage (execImage k.mmu addr).2.2.bitmap).2).1 ≠ 0 ∧
      (bitmapAllocPage (bitmapAllocPage (execImage k.mmu addr).2.2.bitmap).2).2.Spare p := by
  have himage := execImage_later hr addr
  rw [ArgumentsRoom] at h
  generalize execImage k.mmu addr = image at h himage ⊢
  have hri := himage.region hr
  obtain ⟨hr₂, hlater⟩ := vectorPages_later hri image.1 0xb00000
  have hr₃ := hlater.region hr₂
  obtain ⟨htake, hfound⟩ := bitmapAllocPage_takes hr₃
  obtain ⟨hspare, -⟩ := (bitmapAllocPage_takes (htake.region hr₃)).2.resolve_left h
  -- a frame that is free in the end was free all the time
  obtain ⟨htake₁, -⟩ := bitmapAllocPage_takes hri
  have hr₁ := htake₁.region hri
  have hspare₂ := hlater.spare (htake.spare hspare)
  have hspare₁ := (bitmapAllocPage_takes hr₁).1.spare hspare₂
  have hstart : (bitmapAllocPage image.2.2.bitmap).2.start ≠ 0 := by
    rw [htake₁.start_eq, himage.start_eq]
    exact h0
  exact ⟨_, htake₁.spare hspare₁, bitmapAllocPage_ne hr₁ hstart hspare₁, hspare₂⟩

/-- 2055 frames are enough: five for the directory and the vectors, two for the stack, 1024 for
the heap of the program, and 1024 for tables. -/
theorem argumentsRoom_of_free (hr : k.mmu.bitmap.Region) (h0 : k.mmu.bitmap.start ≠ 0)
    (h : 2055 ≤ freeFrames k.mmu.bitmap) (addr : ℕ) : ArgumentsRoom k addr := by
  have himage := execImage_roomy (n := 1028) hr h0 h addr
  rw [ArgumentsRoom]
  generalize execImage k.mmu addr = image at himage ⊢
  obtain ⟨s, hvector, hbitmap⟩ := vectorPages_roomy (n := 2 + 1024) himage
    (show 0xb00000 + 4096 < word32 by decide)
  rw [← hbitmap]
  have hpage := hvector.takePage (n := 1 + 1024)
  exact bitmapAllocPage_ne_of_free hpage.region hpage.start hpage.free

/-- A vector that the program can read, apart from the page of its stack. -/
structure VectorSeen (b : Bitmap) (m : Memory) (pd old vec virt stack : ℕ)
    (args : List (List UInt8)) (s : Mmu) (page strs : ℕ) : Prop where
  pageData : DataPage b pd s page
  strsData : DataPage b pd s strs
  pageApart : page ≠ stack + 4096
  strsApart : strs ≠ stack + 4096
  view : VectorView s.mem pd virt page strs
  copied : CopiedPages m old page strs (virt + 4096) (ptrAt m old vec) (lenAt args)
    (pointersWritten args.length (stopAt args)) (stopAt args) s.mem

section Seen
variable {s' : Mmu} {old vec stack page strs : ℕ}

theorem VectorView.congr {m' : Memory} (h : VectorView m pd virt page strs)
    (hpages : ∀ v, virt ≤ v → v < virt + 8192 → pageOf m' pd v = pageOf m pd v) :
    VectorView m' pd virt page strs := by
  obtain ⟨e, he, hframe⟩ := h.page
  obtain ⟨e', he', hframe'⟩ := h.strs
  exact ⟨h.aligned, h.top, ⟨e, (hpages _ le_rfl (by omega)).trans he, hframe⟩,
    ⟨e', (hpages _ (by omega) (by omega)).trans he', hframe'⟩⟩

theorem StackPage.apart {q : ℕ} (h : StackPage b pd s stack) (h0 : 0x2000 ≤ b.start)
    (hq : b.Spare q) (hne : ∀ {p}, DataPage b pd s p → p ≠ q) : q ≠ stack + 4096 := by
  rcases h.data with rfl | hdata
  · have hlow := hq.start_le
    omega
  · exact (hne hdata).symm

/-- A vector that was copied is seen, and the stack is where it was. -/
theorem VectorDone.seen (h : VectorDone b m pd old vec virt args s page strs s')
    (hstack : StackPage b pd s stack) (h0 : 0x2000 ≤ b.start) (hv : virt + 8192 ≤ 0xbffff000) :
    VectorSeen b m pd old vec virt stack args s' page strs ∧ StackPage b pd s' stack := by
  have haligned := h.view.aligned
  refine ⟨⟨h.pageData, h.strsData, hstack.apart h0 h.pageData.spare fun hq => (h.data hq).2.1,
    hstack.apart h0 h.strsData.spare fun hq => (h.data hq).2.2.1, h.view, h.copied⟩,
    h.leads (by decide) (by omega) (by omega) hstack.leads,
    hstack.data.imp_right fun hq => (h.data hq).1⟩

/-- It is still seen when another vector was copied. -/
theorem VectorSeen.step {vec' virt' page' strs' : ℕ} {env : List (List UInt8)}
    (h : VectorSeen b m pd old vec virt stack args s page strs) (hfits : CopyFits args)
    (hr : s.bitmap.Region) (hdone : VectorDone b m pd old vec' virt' env s page' strs' s')
    (hv : virt' = virt + 8192) :
    VectorSeen b m pd old vec virt stack args s' page strs := by
  have haligned := h.view.aligned
  have htop := h.view.top
  obtain ⟨hpage, -, -, hsame⟩ := hdone.data h.pageData
  obtain ⟨hstrs, -, -, hsame'⟩ := hdone.data h.strsData
  refine ⟨hpage, hstrs, h.pageApart, h.strsApart, ⟨haligned, htop,
    hdone.leads (by omega) (by omega) (by omega) h.view.page,
    hdone.leads (by omega) (by omega) (by omega) h.view.strs⟩,
    h.copied.congr (h.pageData.marked.isPage hr) hsame hsame' hfits.1 hfits.2⟩

end Seen

/-- The state `s'` when both vectors were copied, in the space that `s` was. -/
structure BothDone (b : Bitmap) (m : Memory) (pd old argv envp stack : ℕ)
    (args env : List (List UInt8)) (s s' : Mmu) : Prop where
  space : NewSpace b m pd s'
  stackPage : StackPage b pd s' stack
  vector : ∃ page strs, VectorSeen b m pd old argv 0xb00000 stack args s' page strs
  environment : ∃ page strs, VectorSeen b m pd old envp 0xb02000 stack env s' page strs
  leads : ∀ {v p}, v < 0xb00000 → LeadsTo s.mem pd v p → LeadsTo s'.mem pd v p

/-- The vectors one after the other: the second one begins in the table of the first. -/
theorem bothDone {old stack : ℕ} (h : NewSpace b m pd s) (hstack : StackPage b pd s stack)
    (h0 : 0x2000 ≤ b.start) (hold : Occupied b m old) (hargv : VectorAt m old argv args)
    (henvp : VectorAt m old envp env)
    (hbehind : ∀ i < args.length, BehindUsed b m old (ptrAt m old argv i) (lenAt args i))
    (hbehind' : ∀ i < env.length, BehindUsed b m old (ptrAt m old envp i) (lenAt env i))
    (hne : (bitmapAllocPage (bitmapAllocPage s.bitmap).2).1 ≠ 0)
    (hspare : (bitmapAllocPage (bitmapAllocPage s.bitmap).2).2.Spare p)
    (hroom : (bitmapAllocPage (bitmapAllocPage (vectorPages s pd 0xb00000).2.2.bitmap).2).1 ≠ 0) :
    (CopiesInside old argv (vectorPages s pd 0xb00000).1 (vectorPages s pd 0xb00000).2.1 0xb01000
      2147483648 0 0 (vectorPages s pd 0xb00000).2.2.mem ↔ CopyFits args) ∧
    (CopyFits args → ∃ s₁, execVector s old pd argv 0xb00000 = some (stopAt args, s₁) ∧
      (CopiesInside old envp (vectorPages s₁ pd 0xb02000).1 (vectorPages s₁ pd 0xb02000).2.1 0xb03000
        2147483648 0 0 (vectorPages s₁ pd 0xb02000).2.2.mem ↔ CopyFits env) ∧
      (CopyFits env → ∃ s₂, execVector s₁ old pd envp 0xb02000 = some (stopAt env, s₂) ∧
        BothDone b m pd old argv envp stack args env s s₂)) := by
  obtain ⟨hinside, hrun⟩ := execVector_spec h hold hargv hbehind
    (show 0xb00000 % 4096 = 0 by decide) (by decide) (by decide) hne (.inr ⟨p, hspare⟩)
  refine ⟨hinside, fun hfits => ?_⟩
  obtain ⟨s₁, hexec, hbitmap, hdone⟩ := hrun hfits.1 hfits.2
  obtain ⟨hseen, hstack₁⟩ := hdone.seen hstack h0 (by decide)
  have hpresent := hdone.view.page.present
  rw [← hbitmap] at hroom
  obtain ⟨hinside', hrun'⟩ := execVector_spec hdone.space hold henvp hbehind'
    (show 0xb02000 % 4096 = 0 by decide) (by decide) (by decide) hroom (.inl hpresent)
  refine ⟨s₁, hexec, hinside', fun hfits' => ?_⟩
  obtain ⟨s₂, hexec', -, hdone'⟩ := hrun' hfits'.1 hfits'.2
  obtain ⟨hseen', hstack₂⟩ := hdone'.seen hstack₁ h0 (by decide)
  refine ⟨s₂, hexec', hdone'.space, hstack₂,
    ⟨_, _, hseen.step hfits hdone.space.region hdone' rfl⟩, ⟨_, _, hseen'⟩, fun hv hleads => ?_⟩
  have hlt := hv.trans (show 0xb00000 < word32 by decide)
  exact hdone'.leads hlt (by omega) (by omega) (hdone.leads hlt (by omega) (by omega) hleads)

end Both

/-! ### The program -/

section Program
variable {b : Bitmap} {m : Memory} {s : Mmu} {k k' : Kernel} {p pd old vec virt stack argc argv envp : ℕ}
  {page strs : ℕ} {args env : List (List UInt8)}

theorem Replaced.stackWords (h : Replaced m k p pd stack argc k')
    (hstack : StackPage b pd k.mmu stack) : k'.stackWord p 1 = argc ∧
      k'.stackWord p 2 = 0xb00000 ∧ k'.stackWord p 3 = 0xb02000 := by
  obtain ⟨e, he, hframe⟩ := hstack.leads
  have hleads : LeadsTo k'.mmu.mem pd 0xbffff000 (stack + 4096) :=
    ⟨e, (h.pages _ (by decide)).trans he, hframe⟩
  have hword : ∀ i < 4, k'.stackWord p i = k'.mmu.mem.load (stack + 4096 + (4080 + 4 * i)) 4 := by
    intro i hi
    rw [Kernel.stackWord, h.pdt, h.esp, ← (hleads.read (by decide) (by omega) 4).1, mmuReadl]
    congr 1
    omega
  exact ⟨(hword 1 (by decide)).trans h.argc, (hword 2 (by decide)).trans h.argv,
    (hword 3 (by decide)).trans h.envp⟩

/-- The pages of a vector are not touched any more. -/
theorem VectorSeen.final (h : VectorSeen b m pd old vec virt stack args k.mmu page strs)
    (hrep : Replaced m k p pd stack argc k') (hr : k.mmu.bitmap.Region)
    (hold : Occupied b m (k.procs p).pdt) (hfits : CopyFits args) (hv : virt + 8192 ≤ 0xc0000000) :
    VectorView k'.mmu.mem pd virt page strs ∧
      CopiedPages m old page strs (virt + 4096) (ptrAt m old vec) (lenAt args)
        (pointersWritten args.length (stopAt args)) (stopAt args) k'.mmu.mem := by
  have hsame : ∀ {q}, DataPage b pd k.mmu q → q ≠ stack + 4096 →
      SamePage k'.mmu.mem k.mmu.mem q := by
    intro q hq hne
    refine hrep.same (hq.marked.isPage hr) hq.ne ?_ hne
    rintro ⟨i, hi, hp, he⟩
    exact hold.table ⟨i, by omega, hp, he⟩ hq.spare
  exact ⟨h.view.congr fun v _ hlt => hrep.pages v (by omega),
    h.copied.congr (h.pageData.marked.isPage hr) (hsame h.pageData h.pageApart)
      (hsame h.strsData h.strsApart) hfits.1 hfits.2⟩

/-- What the program sees once both vectors were copied. -/
theorem argumentsPassed_iff (hdone : BothDone b m pd old argv envp stack args env s k.mmu)
    (hrep : Replaced m k p pd stack (stopAt args) k') (hold : Occupied b m (k.procs p).pdt)
    (hargv : VectorAt m old argv args) (henvp : VectorAt m old envp env) (hfits : CopyFits args)
    (hfits' : CopyFits env) : ArgumentsPassed k' p args env ↔
      (args.length = stopAt args ∧ args.length < 1024 ∧
        ∀ i < stopAt args, SameBehind m old (ptrAt m old argv i) (lenAt args i)) ∧
      (env.length = stopAt env ∨
        env.length = stopAt env + 1 ∧ stringStart (lenAt env) (stopAt env) < 4096) ∧
        ∀ i < stopAt env, SameBehind m old (ptrAt m old envp i) (lenAt env i) := by
  have hr := hdone.space.region
  obtain ⟨hargc, hargvWord, henvpWord⟩ := hrep.stackWords hdone.stackPage
  obtain ⟨page, strs, hseen⟩ := hdone.vector
  obtain ⟨page', strs', hseen'⟩ := hdone.environment
  obtain ⟨hview, hcopied⟩ := hseen.final hrep hr hold hfits (by decide)
  obtain ⟨hview', hcopied'⟩ := hseen'.final hrep hr hold hfits' (by decide)
  have hpageIs := hseen.pageData.marked.isPage hr
  have hpassed := passedAt_iff hargv hview hpageIs (hseen.strsData.marked.isPage hr) hcopied
    (stops_stopAt args) hfits.1 hfits.2
  have hpassed' := passedAt_iff henvp hview' (hseen'.pageData.marked.isPage hr)
    (hseen'.strsData.marked.isPage hr) hcopied' (stops_stopAt env) hfits'.1 hfits'.2
  constructor
  · intro h
    have hlen := h.argc
    have hinside := h.inside
    have hvec := h.argv
    have henv := h.envp
    rw [hargc] at hlen
    rw [hrep.pdt, hargvWord] at hvec
    rw [hrep.pdt, henvpWord] at henv
    exact ⟨⟨hlen.symm, by omega, (hpassed.mp hvec).2⟩, hpassed'.mp henv⟩
  · rintro ⟨⟨hlen, hlt, hsame⟩, henv⟩
    have hwritten : pointersWritten args.length (stopAt args) = args.length := by
      rw [pointersWritten, if_neg (by omega), hlen]
    refine ⟨?_, ?_, by omega, ?_, ?_, ?_⟩
    · rw [hargc, hlen]
    · rw [hrep.pdt, hargvWord]
      exact hpassed.mpr ⟨.inl hlen, hsame⟩
    · rw [hrep.pdt, hargvWord]
      exact (hview.page.read hview.aligned (by omega) 4).2
    · rw [hrep.pdt, hargvWord, hview.readl (by omega)]
      exact pageRest_load hcopied.pageRest hpageIs (by rw [hwritten]) (by omega)
    · rw [hrep.pdt, henvpWord]
      exact hpassed'.mpr henv

end Program

/-- The file is found and loaded at `addr`, and it is an ELF file for x86; `k'` is the state in
which `process_execve` begins to make the new address space. -/
structure ExecLoads (k : Kernel) (fs : FsCalls) (root : Option Mount) (mounts : List Mount)
    (path : Option (List Char)) (addr : ℕ) (k' : Kernel) : Prop where
  found : ∃ mount st k₁, vfsStatCall k fs root mounts path = some (.ok (some mount, st), k₁) ∧
    vfsLoadFile k₁ fs mount st = some (addr, k')
  ne : addr ≠ 0
  elf : isElf k'.mmu addr = true
  arch : k'.mmu.view.load (addr + 6) 1 = elfArchX86

/-- The caller: it has its vectors in its address space, and neither that nor what lies behind
the pages of its strings is a free frame. -/
structure ExecCaller (k : Kernel) (p argv envp : ℕ) (args env : List (List UInt8)) : Prop where
  region : k.mmu.bitmap.Region
  start : 0x2000 ≤ k.mmu.bitmap.start
  space : Occupied k.mmu.bitmap k.mmu.mem (k.procs p).pdt
  argvAt : VectorAt k.mmu.mem (k.procs p).pdt argv args
  envpAt : VectorAt k.mmu.mem (k.procs p).pdt envp env
  argvBehind : ∀ i < args.length, BehindUsed k.mmu.bitmap k.mmu.mem (k.procs p).pdt
    (ptrAt k.mmu.mem (k.procs p).pdt argv i) (lenAt args i)
  envpBehind : ∀ i < env.length, BehindUsed k.mmu.bitmap k.mmu.mem (k.procs p).pdt
    (ptrAt k.mmu.mem (k.procs p).pdt envp i) (lenAt env i)

section Execve
variable {k k₂ : Kernel} {fs : FsCalls} {root : Option Mount} {mounts : List Mount}
  {path : Option (List Char)} {p addr argv envp : ℕ} {args env : List (List UInt8)}

theorem ExecLoads.execve_eq (h : ExecLoads k fs root mounts path addr k₂) (p argv envp : ℕ) :
    processExecve k fs root mounts p path argv envp =
      (execElf k₂ p addr argv envp).map fun k' => (0, k') := by
  obtain ⟨mount, st, k₁, hstat, hload⟩ := h.found
  rw [processExecve, hstat, Option.bind_some]
  dsimp only
  rw [hload, Option.bind_some, if_neg h.ne, if_neg (by rw [h.elf]; decide), if_pos h.arch]

/-- The two vectors behind the image. -/
theorem ExecCaller.vectors (h : ExecCaller k p argv envp args env) (hroom : ArgumentsRoom k addr) :
    (CopiesInside (k.procs p).pdt argv
        (vectorPages (execImage k.mmu addr).2.2 (execImage k.mmu addr).1 0xb00000).1
        (vectorPages (execImage k.mmu addr).2.2 (execImage k.mmu addr).1 0xb00000).2.1 0xb01000
        2147483648 0 0
        (vectorPages (execImage k.mmu addr).2.2 (execImage k.mmu addr).1 0xb00000).2.2.mem ↔
      CopyFits args) ∧
    (CopyFits args → ∃ s₁, execVector (execImage k.mmu addr).2.2 (k.procs p).pdt
        (execImage k.mmu addr).1 argv 0xb00000 = some (stopAt args, s₁) ∧
      (CopiesInside (k.procs p).pdt envp (vectorPages s₁ (execImage k.mmu addr).1 0xb02000).1
          (vectorPages s₁ (execImage k.mmu addr).1 0xb02000).2.1 0xb03000 2147483648 0 0
          (vectorPages s₁ (execImage k.mmu addr).1 0xb02000).2.2.mem ↔ CopyFits env) ∧
      (CopyFits env → ∃ s₂, execVector s₁ (k.procs p).pdt (execImage k.mmu addr).1 envp 0xb02000 =
          some (stopAt env, s₂) ∧
        BothDone k.mmu.bitmap k.mmu.mem (execImage k.mmu addr).1 (k.procs p).pdt argv envp
          (execImage k.mmu addr).2.1 args env (execImage k.mmu addr).2.2 s₂)) := by
  have h0 : k.mmu.bitmap.start ≠ 0 := by
    have := h.start
    omega
  obtain ⟨q, hspare, hne, hspare'⟩ := hroom.image h.region h0
  obtain ⟨hspace, hstack⟩ := execImage_spec h.region h0 ⟨q, hspare⟩
  rw [ArgumentsRoom] at hroom
  generalize execImage k.mmu addr = image at hspace hstack hroom hne hspare' ⊢
  exact bothDone hspace hstack h.start h.space h.argvAt h.envpAt h.argvBehind h.envpBehind hne
    hspare' hroom

/-- The copies lie in their pages exactly if everything fits. -/
theorem ExecCaller.inside_iff (h : ExecCaller k p argv envp args env)
    (hroom : ArgumentsRoom k addr) :
    ArgumentsInside k p addr argv envp ↔ CopyFits args ∧ CopyFits env := by
  obtain ⟨hinside, hrun⟩ := h.vectors hroom
  rw [ArgumentsInside]
  dsimp only
  generalize execImage k.mmu addr = image at hinside hrun ⊢
  constructor
  · rintro ⟨hargs, henv⟩
    have hfits := hinside.mp hargs
    obtain ⟨s₁, hexec, hinside', -⟩ := hrun hfits
    have hwrites := henv _ hexec
    dsimp only at hwrites
    exact ⟨hfits, hinside'.mp hwrites⟩
  · rintro ⟨hfits, hfits'⟩
    obtain ⟨s₁, hexec, hinside', -⟩ := hrun hfits
    refine ⟨hinside.mpr hfits, fun r hr => ?_⟩
    rw [hexec] at hr
    rw [← Option.some.inj hr]
    dsimp only
    exact hinside'.mpr hfits'

/-- If everything fits the call ends, with the old address space given back. -/
theorem ExecCaller.execElf_done (h : ExecCaller k p argv envp args env)
    (hroom : ArgumentsRoom k addr) (hfits : CopyFits args) (hfits' : CopyFits env) :
    ∃ s k', execElf k p addr argv envp = some k' ∧
      BothDone k.mmu.bitmap k.mmu.mem (execImage k.mmu addr).1 (k.procs p).pdt argv envp
        (execImage k.mmu addr).2.1 args env (execImage k.mmu addr).2.2 s ∧
      Replaced k.mmu.mem { k with mmu := s } p (execImage k.mmu addr).1 (execImage k.mmu addr).2.1
        (stopAt args) k' := by
  obtain ⟨-, hrun⟩ := h.vectors hroom
  rw [execElf]
  generalize execImage k.mmu addr = image at hrun ⊢
  obtain ⟨s₁, hexec, -, hnext⟩ := hrun hfits
  obtain ⟨s₂, hexec', hdone⟩ := hnext hfits'
  have hargc : stopAt args < word32 := by
    have hle := (stops_stopAt args).le
    have htop := h.argvAt.top
    omega
  have hrep := execReplace_spec (k := { k with mmu := s₂ }) (p := p) hdone.space h.space
    hdone.stackPage h.start hargc addr
  refine ⟨s₂, _, ?_, hdone, hrep⟩
  rw [hexec, Option.bind_some, hexec', Option.map_some]

/-- The program sees the vectors if the loops came to their ends. -/
theorem ExecCaller.execElf_spec (h : ExecCaller k p argv envp args env)
    (hroom : ArgumentsRoom k addr) (hfits : CopyFits args) (hfits' : CopyFits env) :
    ∃ k', execElf k p addr argv envp = some k' ∧
      (ArgumentsPassed k' p args env ↔
        (args.length = stopAt args ∧ args.length < 1024 ∧ ∀ i < stopAt args,
          SameBehind k.mmu.mem (k.procs p).pdt (ptrAt k.mmu.mem (k.procs p).pdt argv i)
            (lenAt args i)) ∧
        (env.length = stopAt env ∨
          env.length = stopAt env + 1 ∧ stringStart (lenAt env) (stopAt env) < 4096) ∧
        ∀ i < stopAt env, SameBehind k.mmu.mem (k.procs p).pdt
          (ptrAt k.mmu.mem (k.procs p).pdt envp i) (lenAt env i)) := by
  obtain ⟨s, k', hexec, hdone, hrep⟩ := h.execElf_done hroom hfits hfits'
  exact ⟨k', hexec, argumentsPassed_iff hdone hrep h.space h.argvAt h.envpAt hfits hfits'⟩

end Execve

/-- No argument is empty, fewer than 1024 pointers and 4096 bytes of strings are passed, and no read
across the end of a page finds another byte; in the environment the last string may be empty, and
1024 pointers fit. -/
structure ArgumentsFit (k : Kernel) (p argv envp : ℕ) (args env : List (List UInt8)) : Prop where
  pointers : args.length < 1024
  nonempty : [] ∉ args
  bytes : stringBytes args ≤ 4096
  behind : ∀ i < args.length, SameBehind k.mmu.mem (k.procs p).pdt
    (ptrAt k.mmu.mem (k.procs p).pdt argv i) (lenAt args i)
  envPointers : env.length ≤ 1024
  envNonempty : [] ∉ env.dropLast
  envBytes : stringBytes env ≤ 4096
  envBehind : ∀ i < env.length, SameBehind k.mmu.mem (k.procs p).pdt
    (ptrAt k.mmu.mem (k.procs p).pdt envp i) (lenAt env i)

section Fit
variable {k k₂ : Kernel} {fs : FsCalls} {root : Option Mount} {mounts : List Mount}
  {path : Option (List Char)} {p addr argv envp : ℕ} {args env : List (List UInt8)}

theorem ArgumentsFit.copyFits (h : ArgumentsFit k p argv envp args env) :
    CopyFits args ∧ CopyFits env := by
  have hlast : [] ∉ args.dropLast := fun hmem => h.nonempty (List.mem_of_mem_dropLast hmem)
  exact ⟨((vector_fits_iff args).mpr ⟨h.pointers.le, hlast, h.bytes⟩).1,
    ((vector_fits_iff env).mpr ⟨h.envPointers, h.envNonempty, h.envBytes⟩).1⟩

/-- Arguments that fit are passed on, and written where they belong. -/
theorem ArgumentsFit.passed (h : ArgumentsFit k₂ p argv envp args env)
    (hload : ExecLoads k fs root mounts path addr k₂)
    (hcaller : ExecCaller k₂ p argv envp args env) (hroom : ArgumentsRoom k₂ addr) :
    (∃ k', processExecve k fs root mounts p path argv envp = some (0, k') ∧
      ArgumentsPassed k' p args env) ∧ ArgumentsInside k₂ p addr argv envp := by
  have hlen := stopAt_eq_iff.mpr h.nonempty
  have hstop := stops_stopAt env
  obtain ⟨hfits, hfits'⟩ := h.copyFits
  have hend := ((vector_fits_iff env).mpr ⟨h.envPointers, h.envNonempty, h.envBytes⟩).2
  obtain ⟨k', hrun', hiff⟩ := hcaller.execElf_spec hroom hfits hfits'
  rw [hload.execve_eq, hcaller.inside_iff hroom]
  refine ⟨⟨k', by rw [hrun', Option.map_some], hiff.mpr ⟨⟨hlen, h.pointers, ?_⟩, hend, ?_⟩⟩,
    hfits, hfits'⟩
  · exact hlen ▸ h.behind
  · exact fun i hi => h.envBehind i (Nat.lt_of_lt_of_le hi hstop.le)

/-- What is passed on, and written where it belongs, fits. -/
theorem argumentsFit_of_passed (hload : ExecLoads k fs root mounts path addr k₂)
    (hcaller : ExecCaller k₂ p argv envp args env) (hroom : ArgumentsRoom k₂ addr)
    (h : ∃ k', processExecve k fs root mounts p path argv envp = some (0, k') ∧
      ArgumentsPassed k' p args env) (hinside : ArgumentsInside k₂ p addr argv envp) :
    ArgumentsFit k₂ p argv envp args env := by
  have hstop := stops_stopAt env
  obtain ⟨k', hexec, hpassed⟩ := h
  rw [hload.execve_eq] at hexec
  obtain ⟨hfits, hfits'⟩ := (hcaller.inside_iff hroom).mp hinside
  obtain ⟨k'', hrun', hiff⟩ := hcaller.execElf_spec hroom hfits hfits'
  rw [hrun', Option.map_some, Option.some.injEq, Prod.mk.injEq] at hexec
  obtain ⟨⟨hlen, hlt, hsame⟩, hlast, hsame'⟩ := hiff.mp (hexec.2 ▸ hpassed)
  obtain ⟨h1, h2, h3⟩ := (vector_fits_iff env).mp ⟨hfits', hlast⟩
  refine ⟨hlt, stopAt_eq_iff.mp hlen, ((vector_fits_iff args).mp ⟨hfits, .inl hlen⟩).2.2,
    hlen ▸ hsame, h1, h2, h3, fun i hi => ?_⟩
  rcases Nat.lt_or_ge i (stopAt env) with hlt | hge
  · exact hsame' i hlt
  · -- the last string is empty
    obtain rfl : i = stopAt env := by omega
    intro j hj
    rw [hstop.zero hi] at hj
    exact absurd hj (Nat.not_lt_zero j)

end Fit

/-- The new program sees its arguments, and every byte of theirs is written where it belongs, if a
frame is left for each of the four pages and the arguments fit; and with these frames, only if they
fit. -/
theorem arguments_passed_iff {k k₂ : Kernel} {fs : FsCalls} {root : Option Mount}
    {mounts : List Mount} {path : Option (List Char)} {p addr argv envp : ℕ}
    {args env : List (List UInt8)} (hload : ExecLoads k fs root mounts path addr k₂)
    (hcaller : ExecCaller k₂ p argv envp args env) :
    (ArgumentsRoom k₂ addr ∧ ArgumentsFit k₂ p argv envp args env →
      (∃ k', processExecve k fs root mounts p path argv envp = some (0, k') ∧
        ArgumentsPassed k' p args env) ∧ ArgumentsInside k₂ p addr argv envp) ∧
    (ArgumentsRoom k₂ addr →
      (∃ k', processExecve k fs root mounts p path argv envp = some (0, k') ∧
        ArgumentsPassed k' p args env) → ArgumentsInside k₂ p addr argv envp →
      ArgumentsFit k₂ p argv envp args env) :=
  ⟨fun h => h.2.passed hload hcaller h.1, argumentsFit_of_passed hload hcaller⟩

/-! ### A caller with one string -/

/-- An ELF file with one segment at `0x1000`, which is one byte longer in memory than the 84 bytes
that it has in the file. They are all of the file but the byte `d` behind them. -/
def elfFile (d : UInt8) : List UInt8 :=
  [0x7f, 0x45, 0x4c, 0x46, 1, 1, 1, 0, 0, 0, 0, 0, 0, 0, 0, 0, 2, 0, 3, 0, 1, 0, 0, 0, 0, 0x10, 0, 0,
    52, 0, 0, 0, 0, 0, 0, 0, 0, 0, 0, 0, 52, 0, 32, 0, 1, 0, 0, 0, 0, 0, 0, 0,
    1, 0, 0, 0, 0, 0, 0, 0, 0, 0x10, 0, 0, 0, 0, 0, 0, 84, 0, 0, 0, 85, 0, 0, 0, 5, 0, 0, 0, 0, 0x10,
    0, 0, d]

def elfStat : Stat := { plainStat 2 0x81ff with size := 85 }

/-- A root directory with an ELF file `x`. -/
def elfMount : Mount where
  id := 0
  fs := listedFs fun ino => if ino = 1 then [(['x'], elfStat)] else []
  rootdir := plainStat 1 0x41ff
  ino := 1
  parent := 0

/-- `read` fills the buffer with the file. -/
def elfCalls (d : UInt8) : FsCalls where
  readdir := fun k _ _ _ => k
  read := fun k _ _ buf _ => (85, { k with mmu := { k.mmu with
    mem := k.mmu.mem.write (mmuGetPhysicalAddressPdt k.mmu.mem buf k.mmu.currentPdt) 85
      fun i => (elfFile d).getD i 0 } })

def tableWord : ℕ → ℕ
  | 0x420000 => 0x421007
  | 0x420c00 => 0x422003
  | 0x421000 => 0x423007
  | 0x422400 => 0x424003
  | 0x422404 => 0x425003
  | 0x422408 => 0x426003
  | 0x42240c => 0x427003
  | 0x423010 => 0x20
  | _ => 0

/-- A directory at `0x420000` with a user page and the pages of the heap. The user page has at
`0x10` a vector with one string, which begins with `c`, and at `0x18` an empty vector. -/
def callerMemory (c : UInt8) : Memory := fun x =>
  if x = 0x423020 then c else UInt8.ofNat (tableWord (x / 4 * 4) / 256 ^ (x % 4))

@[irreducible] def fourPages : Heap := heapAddBlock heapInit 0xc0100000 16384 16

def callerKernel (c : UInt8) : Kernel := { twoProcesses with
  mmu := ⟨callerMemory c, ⟨0x400000, 4096, fun i => if i = 1 then 255#32 else 0#32⟩, 0xc0400000,
    0x420000, 0x420000⟩
  heap := fourPages
  procs := fun _ => { Process.zero with pdt := 0x420000 } }

section Loading
variable {k k₁ k₂ : Kernel} {fn f : ℕ} {c d : UInt8}

theorem vfsStatCall_elf (hname : Lends k k₁ 3 fn) (hfile : Lends k₁ k₂ sizeofFile f) :
    vfsStatCall k (elfCalls d) (some elfMount) [] (some ['/', 'x']) =
      some (.ok (some elfMount, elfStat), free (free k₂ f) fn) := by
  have hstrdup : strdup k ['/', 'x'] = some (fn, k₁) := hname.call
  have hcalloc : calloc k₁ 1 sizeofFile = some (f, k₂) := hfile.call
  have hwalk : walkPathCall (elfCalls d) [] 3 ⟨elfMount, elfMount.rootdir, elfMount.rootdir⟩
      (some ['x']) none k₂ = (.ok ⟨elfMount, elfMount.rootdir, elfStat⟩, k₂) := by
    rfl
  rw [vfsStatCall]
  dsimp only
  rw [if_neg (by simp), if_neg (by simp), hstrdup, Option.bind_some, if_neg hname.ne, hcalloc,
    Option.map_some, if_neg hfile.ne]
  exact congrArg (fun r : Except ℤ Walk × Kernel =>
    some (r.1.map fun s => (some s.mount, s.st), free (free r.2 f) fn)) hwalk

theorem vfsLoadFile_elf (hbuf : Lends k k₁ 4181 0xc0100554) :
    vfsLoadFile k (elfCalls d) elfMount elfStat =
      some (0xc0101000, ((elfCalls d).read k₁ elfMount elfStat 0xc0101000 85).2) := by
  have halign : mallocAlign k 85 bitmapPageSize = some (0xc0101000, k₁) := by
    have hmalloc : malloc k ((85 + bitmapPageSize) % word32) = some (0xc0100554, k₁) := hbuf.call
    rw [mallocAlign, hmalloc, Option.map_some]
    dsimp only
    rw [if_pos (by decide)]
    rfl
  have hsize : elfStat.size % word32 = 85 := rfl
  rw [vfsLoadFile, hsize, halign]
  rfl

def loadedMmu (c d : UInt8) : Mmu := { (callerKernel c).mmu with
  mem := (callerMemory c).write 0x425000 85 fun i => (elfFile d).getD i 0 }

def loadedKernel (c d : UInt8) (heap : Heap) : Kernel := { callerKernel c with
  heap := heap
  mmu := loadedMmu c d }

theorem callerMemory_buffer (hc : c = 97 ∨ c = 0) :
    mmuGetPhysicalAddressPdt (callerMemory c) 0xc0101000 0x420000 = 0x425000 := by
  rcases hc with rfl | rfl <;> decide

theorem elfCalls_read (hc : c = 97 ∨ c = 0) (heap : Heap) :
    ((elfCalls d).read { callerKernel c with heap := heap } elfMount elfStat 0xc0101000 85).2 =
      loadedKernel c d heap := by
  have hbuffer := callerMemory_buffer hc
  rw [loadedKernel, loadedMmu, ← hbuffer]
  rfl

theorem loadedMmu_elf (hc : c = 97 ∨ c = 0) (hd : d = 0 ∨ d = 7) :
    isElf (loadedMmu c d) 0xc0101000 = true ∧
      (loadedMmu c d).view.load (0xc0101000 + 6) 1 = elfArchX86 := by
  rcases hc with rfl | rfl <;> rcases hd with rfl | rfl <;> decide

theorem callerKernel_loads (hc : c = 97 ∨ c = 0) (hd : d = 0 ∨ d = 7) : ∃ heap,
    ExecLoads (callerKernel c) (elfCalls d) (some elfMount) [] (some ['/', 'x']) 0xc0101000
      (loadedKernel c d heap) := by
  have hname := lends_of_room (k := callerKernel c) (show 3 ≠ 0 by decide)
    (by rcases hc with rfl | rfl <;> decide +kernel) (by rcases hc with rfl | rfl <;> decide +kernel)
  have hfile := lends_of_room (k := { callerKernel c with
    heap := (heapAlloc (callerKernel c).peek fourPages 16).2 }) (show sizeofFile ≠ 0 by decide)
    (by rcases hc with rfl | rfl <;> decide +kernel) (by rcases hc with rfl | rfl <;> decide +kernel)
  have hstat := vfsStatCall_elf (d := d) hname hfile
  generalize hk : free (free _ _) _ = k₃ at hstat
  have hbuf := lends_of_room (k := k₃) (show 4181 ≠ 0 by decide)
    (by subst hk; rcases hc with rfl | rfl <;> decide +kernel)
    (by subst hk; rcases hc with rfl | rfl <;> decide +kernel)
  have hraw : (heapAlloc k₃.peek k₃.heap (max 4181 minMallocSize)).1 = 0xc0100554 := by
    subst hk
    rcases hc with rfl | rfl <;> decide +kernel
  rw [hraw] at hbuf
  have hload := vfsLoadFile_elf (d := d) hbuf
  generalize (heapAlloc k₃.peek k₃.heap (max 4181 minMallocSize)).2 = heap at hload
  have hkept : { k₃ with heap := heap } = { callerKernel c with heap := heap } := by
    subst hk
    unfold free
    split_ifs <;> rfl
  rw [hkept, elfCalls_read hc] at hload
  obtain ⟨helf, harch⟩ := loadedMmu_elf hc hd
  exact ⟨heap, ⟨elfMount, elfStat, k₃, hstat, hload⟩, by decide, helf, harch⟩

theorem tableWord_lt (a : ℕ) : tableWord a < 256 ^ 4 := by
  unfold tableWord
  split <;> decide

theorem tableWord_cases {a : ℕ} (ha : a < 0x423000) : tableWord a = 0 ∨
    a = 0x420000 ∨ a = 0x420c00 ∨ a = 0x421000 ∨ a = 0x422400 ∨ a = 0x422404 ∨ a = 0x422408 ∨
      a = 0x42240c := by
  unfold tableWord
  split <;> simp
  omega

theorem loadedMmu_entry (c d : UInt8) {a : ℕ} (ha : a % 4 = 0) (hlow : 0x420000 ≤ a)
    (hhigh : a < 0x423000) : entryAt (loadedMmu c d).mem a = .ofWord (tableWord a) := by
  have hload : (loadedMmu c d).mem.load a 4 =
      (Memory.store (fun _ => 0) a 4 (tableWord a)).load a 4 := by
    refine Memory.load_congr (by rw [space]; omega) fun x hx hx' => ?_
    rw [loadedMmu]
    dsimp only
    rw [Memory.write_of_not_mem (by decide) (by omega), callerMemory, if_neg (by omega),
      Memory.store, Memory.write_of_mem (by rw [space]; omega) hx hx', show x / 4 * 4 = a by omega,
      show x % 4 = x - a by omega]
  rw [entryAt, hload, Memory.load_store (by rw [space]; omega) (tableWord_lt a)]

theorem loadedMmu_table (c d : UInt8) {k : ℕ} (hk : k < 1024)
    (hp : (entryAt (loadedMmu c d).mem (0x420000 + 4 * k)).present = true) :
    (entryAt (loadedMmu c d).mem (0x420000 + 4 * k)).frame = 0x421000 ∨
      (entryAt (loadedMmu c d).mem (0x420000 + 4 * k)).frame = 0x422000 := by
  rw [loadedMmu_entry c d (by omega) (by omega) (by omega)] at hp ⊢
  rcases tableWord_cases (show 0x420000 + 4 * k < 0x423000 by omega) with h | h | h | h
  · rw [h] at hp
    cases hp
  · rw [h]
    exact .inl (by decide)
  · rw [h]
    exact .inr (by decide)
  · omega

/-- The frames below the bitmap and the eight that it has given out. -/
def usedFrame (q : ℕ) : Bool := q < 0x400000 || 0x420000 ≤ q && q < 0x428000

theorem loadedMmu_page (c d : UInt8) {a : ℕ} (ha : a % 4 = 0) (hlow : 0x421000 ≤ a)
    (hhigh : a < 0x423000) (hp : (entryAt (loadedMmu c d).mem a).present = true) :
    usedFrame (entryAt (loadedMmu c d).mem a).frame = true := by
  rw [loadedMmu_entry c d ha (by omega) hhigh] at hp ⊢
  rcases tableWord_cases hhigh with h | h | h | rfl | rfl | rfl | rfl | rfl
  · rw [h] at hp
    cases hp
  · omega
  · omega
  all_goals decide

theorem loadedMmu_bit : ∀ f < 40, 32 ≤ f → (loadedMmu 0 0).bitmap.bit f = true := by
  decide

theorem not_spare_of_used {q : ℕ} (h : usedFrame q = true) (c d : UInt8) :
    ¬ (loadedMmu c d).bitmap.Spare q := by
  rintro ⟨f, -, hbit, rfl⟩
  have hstart : (loadedMmu c d).bitmap.start = 0x400000 := rfl
  rw [hstart, usedFrame, Bool.or_eq_true, Bool.and_eq_true, decide_eq_true_eq, decide_eq_true_eq,
    decide_eq_true_eq] at h
  have hset : (loadedMmu c d).bitmap.bit f = true := loadedMmu_bit f (by omega) (by omega)
  rw [hset] at hbit
  cases hbit

theorem loadedMmu_occupied (c d : UInt8) :
    Occupied (loadedMmu c d).bitmap (loadedMmu c d).mem 0x420000 := by
  refine ⟨⟨by decide, by decide⟩, not_spare_of_used rfl c d, ?_, ?_, ?_⟩
  · rintro ⟨k, hk, hp, he⟩
    have htable := loadedMmu_table c d (by omega) hp
    omega
  · rintro t ⟨k, hk, hp, rfl⟩
    refine not_spare_of_used ?_ c d
    rcases loadedMmu_table c d hk hp with he | he
    · rw [he]
      rfl
    · rw [he]
      rfl
  · rintro q ⟨k, hk, hp, j, hj, hp', rfl⟩
    have htable := loadedMmu_table c d hk hp
    exact not_spare_of_used (loadedMmu_page c d (by omega) (by omega) (by omega) hp') c d

theorem loadedMmu_free (c d : UInt8) : 2055 ≤ freeFrames (loadedMmu c d).bitmap := by
  have hsub : (loadedMmu c d).bitmap.allocated ⊆ Finset.range 64 := by
    intro f hf
    rw [Bitmap.allocated, Finset.mem_filter] at hf
    rw [Finset.mem_range]
    by_contra hge
    have hword : (loadedMmu c d).bitmap.word (f / 32) = 0#32 := if_neg (by omega)
    rw [Bitmap.bit, hword] at hf
    simp at hf
  have hcard := Finset.card_le_card hsub
  have hlen : (loadedMmu c d).bitmap.len * 32 = 4096 := by
    rw [Bitmap.len]
    exact (by decide : 4096 / 32 * 32 = 4096)
  rw [Finset.card_range] at hcard
  rw [freeFrames, hlen]
  omega

theorem loadedMmu_vectors (hc : c = 97 ∨ c = 0) (hd : d = 0 ∨ d = 7) :
    mmuReadl (loadedMmu c d).mem 0x420000 0x10 = 0x20 ∧
      mmuReadl (loadedMmu c d).mem 0x420000 0x14 = 0 ∧
      mmuReadl (loadedMmu c d).mem 0x420000 0x18 = 0 := by
  rcases hc with rfl | rfl <;> rcases hd with rfl | rfl <;> decide

theorem loadedMmu_region (c d : UInt8) : (loadedMmu c d).bitmap.Region :=
  ⟨(by decide : 0x400000 % 4096 = 0), (by decide : 0x400000 + 4096 / 32 * 32 * 4096 ≤ 4294967296)⟩

/-- No read of a string at `0x20` that is this short crosses the end of the page. -/
theorem loadedMmu_inside (hc : c = 97 ∨ c = 0) (hd : d = 0 ∨ d = 7) {i n : ℕ} (hi : i < n)
    (hn : n ≤ 1) :
    ¬ Straddles (ptrAt (loadedMmu c d).mem 0x420000 0x10 0) n i := by
  have hptr : ptrAt (loadedMmu c d).mem 0x420000 0x10 0 = 0x20 := (loadedMmu_vectors hc hd).1
  have hstart := readStart_le n i
  rw [hptr, Straddles]
  omega

/-- The caller passes one string and an empty environment. -/
theorem loadedKernel_caller (hc : c = 97 ∨ c = 0) (hd : d = 0 ∨ d = 7) {str : List UInt8}
    (hlen : str.length ≤ 1) (hstr : StringAt (loadedMmu c d).mem 0x420000 0x20 str)
    (heap : Heap) (p : ℕ) :
    ExecCaller (loadedKernel c d heap) p 0x10 0x18 [str] [] := by
  obtain ⟨hptr, hnull, hempty⟩ := loadedMmu_vectors hc hd
  have hargv : VectorAt (loadedMmu c d).mem 0x420000 0x10 [str] := by
    refine ⟨by decide, (by decide : 0x10 + 4 * 1 + 4 ≤ word32), fun i hi => ?_, fun i hi => ?_,
      hnull⟩
    · obtain rfl : i = 0 := Nat.lt_one_iff.mp hi
      exact hptr.trans_ne (by decide)
    · obtain rfl : i = 0 := Nat.lt_one_iff.mp hi
      exact hptr ▸ hstr
  have henvp : VectorAt (loadedMmu c d).mem 0x420000 0x18 [] :=
    ⟨by decide, by decide, fun i hi => absurd hi (Nat.not_lt_zero i),
      fun i hi => absurd hi (Nat.not_lt_zero i), hempty⟩
  refine ⟨loadedMmu_region c d, (by decide : 0x2000 ≤ 0x400000), loadedMmu_occupied c d, hargv, henvp,
    fun i hi j hj hstraddles => ?_, fun i hi => absurd hi (Nat.not_lt_zero i)⟩
  obtain rfl : i = 0 := Nat.lt_one_iff.mp hi
  exact absurd hstraddles (loadedMmu_inside hc hd hj hlen)

/-- The caller passes `a`. -/
theorem loadedKernel_short (hd : d = 0 ∨ d = 7) (heap : Heap) :
    ExecCaller (loadedKernel 97 d heap) 16 0x10 0x18 [[97]] [] := by
  have hlen : ([97] : List UInt8).length ≤ 1 := Nat.le_refl 1
  refine loadedKernel_caller (.inl rfl) hd hlen ⟨?_, ?_, ?_, by simp, ?_⟩ heap 16
  · decide
  all_goals rcases hd with rfl | rfl <;> decide

theorem loadedKernel_behind (hc : c = 97 ∨ c = 0) (hd : d = 0 ∨ d = 7) {str : List UInt8}
    (hlen : str.length ≤ 1) (heap : Heap) (p : ℕ) : ∀ i < [str].length, SameBehind (loadedKernel c d heap).mmu.mem
      ((loadedKernel c d heap).procs p).pdt
      (ptrAt (loadedKernel c d heap).mmu.mem ((loadedKernel c d heap).procs p).pdt 0x10 i)
      (lenAt [str] i) := by
  intro i hi j hj hstraddles
  obtain rfl : i = 0 := Nat.lt_one_iff.mp hi
  exact absurd hstraddles (loadedMmu_inside hc hd hj hlen)

theorem loadedKernel_room (c d : UInt8) (heap : Heap) (addr : ℕ) :
    ArgumentsRoom (loadedKernel c d heap) addr := by
  have hmmu : (loadedKernel c d heap).mmu = loadedMmu c d := rfl
  apply argumentsRoom_of_free
  · rw [hmmu]
    exact loadedMmu_region c d
  · rw [hmmu]
    exact (by decide : 0x400000 ≠ 0)
  · rw [hmmu]
    exact loadedMmu_free c d

end Loading

/-- The program `x` is started with the argument `a` and an empty environment. -/
theorem arguments_passed_of_short : ∃ k₂,
    ExecLoads (callerKernel 97) (elfCalls 0) (some elfMount) [] (some ['/', 'x']) 0xc0101000 k₂ ∧
    ExecCaller k₂ 16 0x10 0x18 [[97]] [] ∧ ArgumentsRoom k₂ 0xc0101000 ∧
    ∃ k', processExecve (callerKernel 97) (elfCalls 0) (some elfMount) [] 16 (some ['/', 'x']) 0x10
      0x18 = some (0, k') ∧ ArgumentsPassed k' 16 [[97]] [] := by
  obtain ⟨heap, hload⟩ := callerKernel_loads (.inl rfl) (.inl rfl)
  have hlen : ([97] : List UInt8).length ≤ 1 := Nat.le_refl 1
  have hcaller := loadedKernel_short (.inl rfl) heap
  have hroom := loadedKernel_room 97 0 heap 0xc0101000
  have hbehind := loadedKernel_behind (.inl rfl) (.inl rfl) hlen heap 16
  generalize loadedKernel 97 0 heap = k₂ at hload hcaller hroom hbehind
  generalize callerKernel 97 = k at hload ⊢
  refine ⟨k₂, hload, hcaller, hroom, ?_⟩
  have hfit : ArgumentsFit k₂ 16 0x10 0x18 [[97]] [] :=
    ⟨by decide, by decide, by decide, hbehind, by decide, by decide, by decide,
      fun i hi => absurd hi (Nat.not_lt_zero i)⟩
  exact ((arguments_passed_iff hload hcaller).1 ⟨hroom, hfit⟩).1

/-- An empty string ends the copy: the program finds no arguments. -/
theorem empty_argument_not_passed : ¬ ∀ (k k₂ : Kernel) (fs : FsCalls) (root : Option Mount)
    (mounts : List Mount) (path : Option (List Char)) (p addr argv envp : ℕ)
    (args env : List (List UInt8)), ExecLoads k fs root mounts path addr k₂ →
    ExecCaller k₂ p argv envp args env → ArgumentsRoom k₂ addr →
    (∀ k', processExecve k fs root mounts p path argv envp = some (0, k') →
      ArgumentsPassed k' p args env) ∧ ArgumentsInside k₂ p addr argv envp := by
  intro h
  obtain ⟨heap, hload⟩ := callerKernel_loads (.inr rfl) (.inl rfl)
  have hstr : StringAt (loadedMmu 0 0).mem 0x420000 0x20 [] :=
    ⟨by decide, by decide, by decide, by simp, by decide⟩
  have hlen : ([] : List UInt8).length ≤ 1 := Nat.zero_le 1
  have hcaller := loadedKernel_caller (.inr rfl) (.inl rfl) hlen hstr heap 16
  have hroom := loadedKernel_room 0 0 heap 0xc0101000
  generalize loadedKernel 0 0 heap = k₂ at hload hcaller hroom
  generalize callerKernel 0 = k at hload
  obtain ⟨k', hexec, hpassed⟩ := hcaller.execElf_spec hroom ⟨by decide, by decide⟩
    ⟨by decide, by decide⟩
  have hcall := hload.execve_eq 16 0x10 0x18
  rw [hexec, Option.map_some] at hcall
  have hall := (h _ _ _ _ _ _ _ _ _ _ _ _ hload hcaller hroom).1 k' hcall
  exact absurd (hpassed.mp hall).1.1 (by decide)

end DosKernel
