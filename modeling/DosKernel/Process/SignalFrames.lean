import DosKernel.Process.Signals
import DosKernel.Syscall.Read

/-! The frame of a signal handler. `process_switch` puts the signal number and the interrupted
`eip` below the stack of the process; the `ret` of the handler takes back only one of the two
words. -/

namespace DosKernel

open Lib

/-! ### Writes seen through their own directory -/

section Own
variable {m : Memory} {d u v n data : ℕ}

/-- A directory that does not map itself is walked as before. -/
theorem NoSelf.pageOf_write (h : NoSelf m d) (hd : IsPage d) (hw : UserWrite n v) (data : ℕ)
    (hu : u < 0xc0000000) : pageOf (mmuWrite n m d v data) d u = pageOf m d u := by
  refine (pageOf_congr hd (by omega) (samePage_mmuWrite hw hd data fun hm => (h _ hm).1 rfl).symm
    fun hp => ?_).symm
  have ht : IsTable m d 768 (entryAt m (d + 4 * pdIndex u)).frame :=
    ⟨pdIndex u, by rw [pdIndex]; omega, hp, rfl⟩
  exact (samePage_mmuWrite hw (isPage_of_isTable ht) data fun hm => (h _ hm).2 ht).symm

theorem NoSelf.write (h : NoSelf m d) (hd : IsPage d) (hw : UserWrite n v) (data : ℕ) :
    NoSelf (mmuWrite n m d v data) d := by
  obtain ⟨ht, hp⟩ := h.tables hd hw data
  intro q hq
  rw [ht]
  exact h q ((hp q).mp hq)

theorem NoSelf.read_write (h : NoSelf m d) (hd : IsPage d) (hw : UserWrite n v)
    (hmapped : mmuIsMapped m d v = true) (hdata : data < 256 ^ n) :
    mmuRead n (mmuWrite n m d v data) d v = data := by
  obtain ⟨e, he⟩ := Option.isSome_iff_exists.mp hmapped
  have htop := e.isPage_frame.top
  have haligned := e.isPage_frame.aligned
  have hin := hw.inside
  rw [mmuRead, h.pageOf_write hd hw data hw.user, he, mmuWrite, he]
  exact Memory.load_store (by rw [pageOffset] at *; rw [space]; omega) hdata

/-- The pages of `u` and `v` are in one frame only if they are one page. -/
def MappedOnce (m : Memory) (d u v : ℕ) : Prop :=
  ∀ e e', pageOf m d u = some e → pageOf m d v = some e' → e.frame = e'.frame → u / 4096 = v / 4096

/-- Any other byte is as it was. -/
theorem NoSelf.readb_write (h : NoSelf m d) (hd : IsPage d) (hw : UserWrite n v)
    (hu : u < 0xc0000000) (hout : u < v ∨ v + n ≤ u) (honce : MappedOnce m d u v) (data : ℕ) :
    mmuReadb (mmuWrite n m d v data) d u = mmuReadb m d u := by
  have hin := hw.inside
  rw [mmuRead_one, mmuRead_one, h.pageOf_write hd hw data hu, mmuWrite]
  cases hv : pageOf m d v with
  | none => rfl
  | some e' =>
    cases he : pageOf m d u with
    | none => rfl
    | some e =>
      have h1 := e'.isPage_frame.top
      have h2 := e'.isPage_frame.aligned
      have h3 := e.isPage_frame.aligned
      have hpage := honce e e' he hv
      simp only [Option.elim_some, pageOffset] at hin ⊢
      rw [Memory.store, Memory.write_of_not_mem (by rw [space]; omega)]
      intro hx
      have hframe : e.frame = e'.frame := by omega
      have := hpage hframe
      omega

end Own

/-! ### The handler -/

/-- A handler that was entered with the frame `r` in the memory `m` has returned with `ret`:
the `eip` is the word on top of the stack, and the stack above the argument is as it was. -/
structure HandlerReturned (pdt : ℕ) (m : Memory) (r : Registers) (m' : Memory) (r' : Registers) :
    Prop where
  eip : r'.eip = mmuReadl m pdt r.useresp
  useresp : r'.useresp = (r.useresp + 4) % word32
  stack : ∀ v, r.useresp + 8 ≤ v → v < 0xc0000000 → mmuReadb m' pdt v = mmuReadb m pdt v

/-- The process `p` goes on where it was interrupted, with its stack as it was. -/
structure Resumed (k : Kernel) (p : ℕ) (m' : Memory) (r' : Registers) : Prop where
  eip : r'.eip = (k.procs p).r.eip
  useresp : r'.useresp = (k.procs p).r.useresp
  stack : ∀ v, (k.procs p).r.useresp ≤ v → v < 0xc0000000 →
    mmuReadb m' (k.procs p).pdt v = mmuReadb k.mmu.mem (k.procs p).pdt v

/-- The return address is put on a mapped page, and the page is in no other place of the stack. -/
structure StackBelow (m : Memory) (pdt esp : ℕ) : Prop where
  page : IsPage pdt
  noSelf : NoSelf m pdt
  aligned : esp % 4 = 0
  low : 8 ≤ esp
  user : esp ≤ 0xc0000000
  returns : mmuIsMapped m pdt (esp - 8) = true
  once : ∀ v, esp ≤ v → v < 0xc0000000 → MappedOnce m pdt v (esp - 4) ∧ MappedOnce m pdt v (esp - 8)

section Frames
variable {k : Kernel} {p : ℕ} {r r' : Registers} {m' : Memory}

theorem deliverSignal_writes (hset : k.handlers (k.procs p).sigHandles (k.procs p).signal ≠ 0 ∧
    k.handlers (k.procs p).sigHandles (k.procs p).signal ≠ 1 ∧
    k.handlers (k.procs p).sigHandles (k.procs p).signal ≠ 2 ∧
    k.handlers (k.procs p).sigHandles (k.procs p).signal ≠ 3) : (deliverSignal k p).mmu.mem =
    mmuWritel (mmuWritel k.mmu.mem (k.procs p).pdt (((k.procs p).r.useresp + word32 - 4) % word32)
      (k.procs p).signal) (k.procs p).pdt (((k.procs p).r.useresp + word32 - 8) % word32)
      (k.procs p).r.eip := by
  rw [deliverSignal]
  dsimp only
  rw [if_pos hset]

/-- The memory in which the handler is entered. -/
theorem processSwitch_writes (hred : redirects k p = true) : (processSwitch k p r).1.mmu.mem =
    mmuWritel (mmuWritel k.mmu.mem (k.procs p).pdt (((k.procs p).r.useresp + word32 - 4) % word32)
      (k.procs p).signal) (k.procs p).pdt (((k.procs p).r.useresp + word32 - 8) % word32)
      (k.procs p).r.eip := by
  obtain ⟨hne, hsig, hset⟩ := of_decide_eq_true hred
  have hproc : (beginSwitch k p).procs p = k.procs p := by
    rw [beginSwitch]
    dsimp only
    rw [Kernel.setProc_of_ne k _ (Ne.symm hne)]
  have hend : ∀ k : Kernel, (endSwitch k p).1.mmu.mem = k.mmu.mem := fun k => by
    rw [endSwitch, mmuLoadPdt_eq]
    rfl
  have hdeliver := deliverSignal_writes (k := beginSwitch k p) (p := p) (by rw [hproc]; exact hset)
  rw [processSwitch_eq hne, hend, deliverPending, hproc, if_pos hsig, hdeliver, hproc]
  rfl

/-- After the handler the argument is still on the stack: a process that was redirected never
goes on with the stack pointer it had. -/
theorem signal_frame_unbalanced (hred : redirects k p = true)
    (hret : HandlerReturned (k.procs p).pdt (processSwitch k p r).1.mmu.mem (processSwitch k p r).2
      m' r') :
    r'.useresp = ((k.procs p).r.useresp + word32 - 4) % word32 ∧ ¬ Resumed k p m' r' := by
  obtain ⟨hne, -⟩ := of_decide_eq_true hred
  have hesp : r'.useresp = ((k.procs p).r.useresp + word32 - 4) % word32 := by
    rw [hret.useresp, processSwitch_redirects hne, if_pos hred, word32]
    dsimp only
    omega
  refine ⟨hesp, fun hres => ?_⟩
  have heq := hres.useresp
  rw [hesp, word32] at heq
  omega

/-- Apart from that it goes on as it should. -/
theorem handler_returns_to (hred : redirects k p = true)
    (hstack : StackBelow k.mmu.mem (k.procs p).pdt (k.procs p).r.useresp)
    (heip : (k.procs p).r.eip < word32)
    (hret : HandlerReturned (k.procs p).pdt (processSwitch k p r).1.mmu.mem (processSwitch k p r).2
      m' r') :
    r'.eip = (k.procs p).r.eip ∧ ∀ v, (k.procs p).r.useresp ≤ v → v < 0xc0000000 →
      mmuReadb m' (k.procs p).pdt v = mmuReadb k.mmu.mem (k.procs p).pdt v := by
  obtain ⟨hne, -⟩ := of_decide_eq_true hred
  obtain ⟨hd, hself, haligned, hlow, huser, hreturns, honce⟩ := hstack
  have hesp : (processSwitch k p r).2.useresp = ((k.procs p).r.useresp + word32 - 8) % word32 := by
    rw [processSwitch_redirects hne, if_pos hred]
  have hmem := processSwitch_writes (r := r) hred
  generalize (k.procs p).r.useresp = esp at *
  generalize (k.procs p).pdt = pdt at *
  rw [show (esp + word32 - 8) % word32 = esp - 8 by rw [word32]; omega] at hesp hmem
  rw [show (esp + word32 - 4) % word32 = esp - 4 by rw [word32]; omega] at hmem
  have hw4 : UserWrite 4 (esp - 4) := ⟨.inr (.inr rfl), by omega, by rw [pageOffset]; omega⟩
  have hw8 : UserWrite 4 (esp - 8) := ⟨.inr (.inr rfl), by omega, by rw [pageOffset]; omega⟩
  obtain ⟨hreip, -, hrstack⟩ := hret
  rw [hmem, hesp] at hreip hrstack
  simp only [mmuReadl, mmuWritel] at hreip hrstack
  -- the second write meets the walks of the first one
  have hself' := hself.write hd hw4 (k.procs p).signal
  have hpage : ∀ v < 0xc0000000, pageOf (mmuWrite 4 k.mmu.mem pdt (esp - 4) (k.procs p).signal) pdt v =
      pageOf k.mmu.mem pdt v := fun v hv => hself.pageOf_write hd hw4 _ hv
  have hkept : ∀ v, esp ≤ v → v < 0xc0000000 →
      mmuReadb (mmuWrite 4 k.mmu.mem pdt (esp - 4) (k.procs p).signal) pdt v =
        mmuReadb k.mmu.mem pdt v := fun v hv hv' =>
    hself.readb_write hd hw4 hv' (.inr (by omega)) (honce v hv hv').1 _
  generalize mmuWrite 4 k.mmu.mem pdt (esp - 4) (k.procs p).signal = m₁ at *
  refine ⟨?_, fun v hv hv' => ?_⟩
  · rw [hreip]
    refine hself'.read_write hd hw8 ?_ (heip.trans_eq (by decide))
    rw [mmuIsMapped, hpage _ hw8.user]
    exact hreturns
  · have honce' : MappedOnce m₁ pdt v (esp - 8) := by
      rw [MappedOnce, hpage v hv', hpage _ hw8.user]
      exact (honce v hv hv').2
    rw [hrstack v (by omega) hv', hself'.readb_write hd hw8 hv' (.inr (by omega)) honce',
      hkept v hv hv']

end Frames

/-- Process 2 was interrupted at `0x500` with the signal 10 pending, a handler at `0x1000` and
its stack at `0x800`. -/
def signalledProcess : Kernel :=
  { callingProcess.setProc 32 fun q => { q with
      signal := 10, pdt := 0x420000
      r := { q.r with eip := 0x500, useresp := 0x800 } } with
    mmu := { callingProcess.mmu with mem := twoPageMemory 0x423000 }
    handlers := fun _ _ => 0x1000 }

theorem handlerReturned_at_once (pdt : ℕ) (m : Memory) (r : Registers) :
    HandlerReturned pdt m r m
      { r with eip := mmuReadl m pdt r.useresp, useresp := (r.useresp + 4) % word32 } :=
  ⟨rfl, rfl, fun _ _ _ => rfl⟩

theorem signal_frame_unbalanced_of_switch :
    ∃ m' r', HandlerReturned 0x420000 (processSwitch signalledProcess 32 .zero).1.mmu.mem
        (processSwitch signalledProcess 32 .zero).2 m' r' ∧
      r'.useresp = 0x7fc ∧ ¬ Resumed signalledProcess 32 m' r' := by
  have hret := handlerReturned_at_once 0x420000 (processSwitch signalledProcess 32 .zero).1.mmu.mem
    (processSwitch signalledProcess 32 .zero).2
  exact ⟨_, _, hret, signal_frame_unbalanced (k := signalledProcess) (p := 32) (by decide) hret⟩

/-- The stack pointer is `0x7fc` where it was `0x800`. -/
theorem signal_frame_leaks :
    ¬ ∀ (k : Kernel) (p : ℕ) (r : Registers) (m' : Memory) (r' : Registers),
      redirects k p = true →
      mmuIsMapped k.mmu.mem (k.procs p).pdt ((k.procs p).r.useresp - 4) = true →
      mmuIsMapped k.mmu.mem (k.procs p).pdt ((k.procs p).r.useresp - 8) = true →
      HandlerReturned (k.procs p).pdt (processSwitch k p r).1.mmu.mem (processSwitch k p r).2 m' r' →
      Resumed k p m' r' := by
  intro h
  have hres := h signalledProcess 32 .zero _ _ (by decide) (by decide +kernel) (by decide +kernel)
    (handlerReturned_at_once _ _ _)
  have hesp := hres.useresp
  revert hesp
  decide +kernel

end DosKernel
