import DosKernel.Process.Wait

/-! System calls and faults: `run_syscall` with the calls that work on processes, and the
two ways a user-mode exception ends a process. The other calls do their work on behalf of
the calling process, some of them while it sleeps. -/

namespace DosKernel

open Lib

def ebusy : ℕ := 16

def einval : ℕ := 22

def enosys : ℕ := 38

def sigkill : ℕ := 9

/-- `syscall_signal`. A negative number is a large one as a word. -/
def syscallSignal (signum handler : ℕ) (k : Kernel) (r : Registers) : Kernel × Registers × ℕ :=
  if nsig ≤ signum then (k, r, word32 - einval)
  else if signum = 0 then (k, r, 0)
  else
    let table := (k.procs k.currentProcess).sigHandles
    ({ k with
      handlers := Function.update k.handlers table (Function.update (k.handlers table) signum handler) },
      r, handler)

def syscallPause (k : Kernel) (r : Registers) : Kernel × Registers × ℕ :=
  let kr := processIdle k r
  (kr.1, kr.2, word32 - 1)

/-- The pid that `syscall_kill` works with: 0 stands for the caller. -/
def killedPid (k : Kernel) (pid : ℕ) : ℕ := if pid = 0 then (k.procs k.currentProcess).pid else pid

/-- The end of `syscall_kill` for `SIGKILL`; `none` when it panics, because process 1 was
killed. The pid is read from the process structure that `process_destroy` has freed. -/
def killTarget (target : ℕ) (k : Kernel) (r : Registers) : Option (Kernel × Registers × ℕ) :=
  let p := k.currentProcess
  let k := processDestroy k target sigkill
  let kr := if target = p then processIdle k r else (k, r)
  if (kr.1.procs target).pid = 1 then none else some (kr.1, kr.2, 0)

def syscallKill (pid sig : ℕ) (k : Kernel) (r : Registers) : Option (Kernel × Registers × ℕ) :=
  let pid := killedPid k pid
  let target := processByPid k pid
  if target = 0 then some (k, r, word32 - esrch)
  else if nsig ≤ sig then some (k, r, word32 - einval)
  else if sig = 0 then some (k, r, 0)
  else
    let k := processNotifyWaitpid k pid (sig * 65536)
    if sig = sigkill then killTarget target k r
    else if (k.procs target).signal ≠ 0 then some (k, r, word32 - ebusy)
    else some (k.setProc target ({ · with signal := sig }), r, 0)

/-- `syscall_fork`; `none` when the search for memory does not end. -/
def syscallFork (k : Kernel) (r : Registers) : Option (Kernel × Registers × ℕ) :=
  (processFork k k.currentProcess).map fun c =>
    if c.1 = 0 then (c.2, r, word32 - 1)
    else
      (c.2.setProc c.1 fun child => { child with r := { child.r with eax := 0 } }, r,
        (c.2.procs c.1).pid)

/-- The work of a call that leaves the processes alone: it may use memory, files and the
heap, and sets the frame, the address space and the working directory of its process. -/
structure FileWork where
  run : Registers → Kernel → ℕ → Kernel × ℕ
  frame : ∀ r k p, ∃ mmu heap files fr pdt cwd, (run r k p).1 =
    { k.setProc p ({ · with r := fr, pdt := pdt, cwd := cwd }) with
      mmu := mmu, heap := heap, files := files }

/-- A call between `syscall_sleep_proc` and `syscall_wake_proc`. -/
def sleepingCall (work : FileWork) (k : Kernel) (r : Registers) : Kernel × Registers × ℕ :=
  let p := k.currentProcess
  let kr := processIdle k r
  let w := work.run r { kr.1.setProc p ({ · with suspended := true }) with roundRobin := false } p
  let ks := processSwitch { w.1 with roundRobin := true } p kr.2
  (ks.1.setProc p ({ · with suspended := false }), ks.2, w.2)

/-- A call that returns at once. -/
def directCall (work : FileWork) (k : Kernel) (r : Registers) : Kernel × Registers × ℕ :=
  let w := work.run r k k.currentProcess
  (w.1, r, w.2)

/-- `syscall_read`, `syscall_write`, `syscall_open`, `syscall_stat`, `syscall_lstat` and
`syscall_execve`. -/
def sleeps (no : ℕ) : Bool := no ∈ [0, 1, 2, 4, 6, 59]

/-- The other calls of the table: `close`, `fstat`, `poll`, `lseek`, `mmap`, `mprotect`,
`munmap`, `brk`, `getpid`, the sockets, and the identity of the process. -/
def returnsAtOnce (no : ℕ) : Bool :=
  no ∈ [3, 5, 7, 8, 9, 10, 11, 12, 39, 41, 42, 43, 48, 49, 50, 102, 104, 105, 106, 107, 108, 110]

/-- `run_syscall`. What the calls that are not about processes do is given by `work`.
Number 127 is `syscall_panic`. -/
def runSyscall (work : ℕ → FileWork) (k : Kernel) (r : Registers) :
    Option (Kernel × Registers × ℕ) :=
  let no := r.eax
  if no = 13 then some (syscallSignal r.ebx r.ecx k r)
  else if no = 34 then some (syscallPause k r)
  else if no = 57 then syscallFork k r
  else if no = 60 then some (syscallExit r.ebx k r)
  else if no = 61 then some (syscallWaitpid r.ebx r.ecx k r)
  else if no = 62 then syscallKill r.ebx r.ecx k r
  else if no = 127 then none
  else if sleeps no then some (sleepingCall (work no) k r)
  else if returnsAtOnce no then some (directCall (work no) k r)
  else some (k, r, word32 - enosys)

def syscallHandler (work : ℕ → FileWork) (k : Kernel) (r : Registers) :
    Option (Kernel × Registers) :=
  (runSyscall work (processUnload k r) r).map fun c =>
    let kr := processReload c.1 c.2.1
    (kr.1, { kr.2 with eax := c.2.2 })

/-- The number of a call that works on processes, or of `syscall_panic`. -/
def IsProcessCall (no : ℕ) : Prop :=
  no = 13 ∨ no = 34 ∨ no = 57 ∨ no = 60 ∨ no = 61 ∨ no = 62 ∨ no = 127

/-- The call that was made, and what came of it. -/
inductive Called (work : ℕ → FileWork) (k : Kernel) (r : Registers) :
    Kernel × Registers × ℕ → Prop
  | signal (no : r.eax = 13) : Called work k r (syscallSignal r.ebx r.ecx k r)
  | pause (no : r.eax = 34) : Called work k r (syscallPause k r)
  | fork {c : Kernel × Registers × ℕ} (no : r.eax = 57) (hc : syscallFork k r = some c) :
      Called work k r c
  | exit (no : r.eax = 60) : Called work k r (syscallExit r.ebx k r)
  | waitpid (no : r.eax = 61) : Called work k r (syscallWaitpid r.ebx r.ecx k r)
  | kill {c : Kernel × Registers × ℕ} (no : r.eax = 62)
      (hc : syscallKill r.ebx r.ecx k r = some c) : Called work k r c
  | sleeping (no : ¬ IsProcessCall r.eax) (hsleeps : sleeps r.eax = true) :
      Called work k r (sleepingCall (work r.eax) k r)
  | direct (no : ¬ IsProcessCall r.eax) (hsleeps : ¬ sleeps r.eax = true) :
      Called work k r (directCall (work r.eax) k r)
  | unknown (no : ¬ IsProcessCall r.eax) (hsleeps : ¬ sleeps r.eax = true) :
      Called work k r (k, r, word32 - enosys)

theorem runSyscall_called {work : ℕ → FileWork} {k : Kernel} {r : Registers}
    {c : Kernel × Registers × ℕ} (hc : runSyscall work k r = some c) : Called work k r c := by
  rw [runSyscall] at hc
  by_cases h13 : r.eax = 13
  · rw [if_pos h13] at hc
    obtain rfl := Option.some.inj hc
    exact .signal h13
  rw [if_neg h13] at hc
  by_cases h34 : r.eax = 34
  · rw [if_pos h34] at hc
    obtain rfl := Option.some.inj hc
    exact .pause h34
  rw [if_neg h34] at hc
  by_cases h57 : r.eax = 57
  · rw [if_pos h57] at hc
    exact .fork h57 hc
  rw [if_neg h57] at hc
  by_cases h60 : r.eax = 60
  · rw [if_pos h60] at hc
    obtain rfl := Option.some.inj hc
    exact .exit h60
  rw [if_neg h60] at hc
  by_cases h61 : r.eax = 61
  · rw [if_pos h61] at hc
    obtain rfl := Option.some.inj hc
    exact .waitpid h61
  rw [if_neg h61] at hc
  by_cases h62 : r.eax = 62
  · rw [if_pos h62] at hc
    exact .kill h62 hc
  rw [if_neg h62] at hc
  by_cases h127 : r.eax = 127
  · rw [if_pos h127] at hc
    cases hc
  rw [if_neg h127] at hc
  have no : ¬ IsProcessCall r.eax := by
    rw [IsProcessCall]
    omega
  by_cases hsleeps : sleeps r.eax = true
  · rw [if_pos hsleeps] at hc
    obtain rfl := Option.some.inj hc
    exact .sleeping no hsleeps
  rw [if_neg hsleeps] at hc
  by_cases hdirect : returnsAtOnce r.eax = true
  · rw [if_pos hdirect] at hc
    obtain rfl := Option.some.inj hc
    exact .direct no hsleeps
  · rw [if_neg hdirect] at hc
    obtain rfl := Option.some.inj hc
    exact .unknown no hsleeps

/-! ### Faults -/

/-- `process_handle_int`: a user-mode exception without a handler. -/
def processHandleInt (k : Kernel) (r : Registers) : Kernel × Registers :=
  processIdle (processDestroy k k.currentProcess 1) r

/-- `panic_handler` for an exception in user mode, as `page_fault_handler` calls it. The
pid is read from the process structure that `process_destroy` has freed. -/
def panicHandler (k : Kernel) (r : Registers) : Kernel × Registers :=
  let p := k.currentProcess
  let status := (word32 - r.errCode % word32) % word32
  let k := processDestroy k p status
  processIdle (processNotifyWaitpid k (k.procs p).pid status) r

/-- `isr_common_stub` with `isr_fault_handler` for an exception in user mode. The only
handler installed is that for page faults. -/
def fault (k : Kernel) (r : Registers) : Kernel × Registers :=
  let k := processUnload k r
  let kr := if r.intNo = 14 then panicHandler k r else processHandleInt k r
  processReload kr.1 kr.2

/-! ### What switching leaves alone -/

/-- The two states have the same processes in the same queue: only states, frames and
preemption counts differ, and memory. -/
structure SameProcs (k k' : Kernel) : Prop where
  readyQueue : k'.readyQueue = k.readyQueue
  idle : k'.kernelIdleProcess = k.kernelIdleProcess
  roundRobin : k'.roundRobin = k.roundRobin
  handlers : k'.handlers = k.handlers
  proc : ∀ q, ∃ st fr n, k'.procs q = { k.procs q with state := st, r := fr, preemptions := n }

namespace SameProcs

variable {k k' k'' : Kernel}

theorem refl (k : Kernel) : SameProcs k k := ⟨rfl, rfl, rfl, rfl, fun _ => ⟨_, _, _, rfl⟩⟩

theorem trans (h : SameProcs k k') (h' : SameProcs k' k'') : SameProcs k k'' := by
  refine ⟨h'.readyQueue.trans h.readyQueue, h'.idle.trans h.idle, h'.roundRobin.trans h.roundRobin,
    h'.handlers.trans h.handlers, fun q => ?_⟩
  obtain ⟨st, fr, n, e⟩ := h.proc q
  obtain ⟨st', fr', n', e'⟩ := h'.proc q
  exact ⟨st', fr', n', by rw [e', e]⟩

theorem setProc (k : Kernel) (p : ℕ) (f : Process → Process)
    (hf : ∀ a, ∃ st fr n, f a = { a with state := st, r := fr, preemptions := n }) :
    SameProcs k (k.setProc p f) := by
  refine ⟨rfl, rfl, rfl, rfl, fun q => ?_⟩
  by_cases hq : q = p
  · rw [hq, Kernel.setProc_self]
    exact hf _
  · rw [Kernel.setProc_of_ne k f hq]
    exact ⟨_, _, _, rfl⟩

theorem field_eq {α : Type*} (h : SameProcs k k') (f : Process → α)
    (hf : ∀ a st fr n, f { a with state := st, r := fr, preemptions := n } = f a) (q : ℕ) :
    f (k'.procs q) = f (k.procs q) := by
  obtain ⟨st, fr, n, e⟩ := h.proc q
  rw [e, hf]

theorem next_eq (h : SameProcs k k') : k'.next = k.next := by
  funext q
  exact h.field_eq Process.next (fun _ _ _ _ => rfl) q

end SameProcs

section Frames
variable {k : Kernel} {r : Registers} {p : ℕ}

theorem mmuLoadPdt_same (k : Kernel) (pdt : ℕ) : SameProcs k (mmuLoadPdt k pdt) := by
  rw [mmuLoadPdt_eq]
  exact ⟨rfl, rfl, rfl, rfl, fun _ => ⟨_, _, _, rfl⟩⟩

theorem mmuLoadKernelPdt_same (k : Kernel) : SameProcs k (mmuLoadKernelPdt k) := by
  unfold mmuLoadKernelPdt
  split_ifs
  · rw [mmuLoadPdt_eq]
    exact ⟨rfl, rfl, rfl, rfl, fun _ => ⟨_, _, _, rfl⟩⟩
  · exact SameProcs.refl k

theorem processUnload_same (k : Kernel) (r : Registers) : SameProcs k (processUnload k r) := by
  rw [processUnload]
  split_ifs
  · exact (mmuLoadKernelPdt_same k).trans (SameProcs.setProc _ _ _ fun a => ⟨_, _, _, rfl⟩)
  · exact SameProcs.refl k

theorem processReload_same (k : Kernel) (r : Registers) : SameProcs k (processReload k r).1 := by
  rw [processReload]
  dsimp only
  split_ifs
  · exact SameProcs.refl k
  · exact (SameProcs.setProc k _ _ fun a => ⟨_, _, _, rfl⟩).trans (mmuLoadPdt_same _ _)
  · exact SameProcs.refl k

/-- The frame of a process that is sent to its handler. -/
def Process.redirect (p : Process) (eip useresp : ℕ) : Process :=
  { p with r := { p.r with eip := eip, useresp := useresp } }

/-- A delivery changes memory and two registers of the process. -/
theorem deliverSignal_cases (k : Kernel) (p : ℕ) : deliverSignal k p = k ∨ ∃ mmu eip useresp,
    deliverSignal k p = { k.setProc p (·.redirect eip useresp) with mmu := mmu } := by
  rw [deliverSignal]
  dsimp only
  split_ifs
  · exact .inr ⟨_, _, _, rfl⟩
  · exact .inl rfl

/-- A change of memory and of the frame of one process. -/
structure FrameSet (k k' : Kernel) (p : ℕ) : Prop where
  same : SameProcs k k'
  current : k'.currentProcess = k.currentProcess
  other : ∀ q, q ≠ p → (k'.procs q).r = (k.procs q).r
  eax : (k'.procs p).r.eax = (k.procs p).r.eax

theorem deliverSignal_frame (k : Kernel) (p : ℕ) : FrameSet k (deliverSignal k p) p := by
  rcases deliverSignal_cases k p with h | ⟨mmu, eip, useresp, h⟩
  · rw [h]
    exact ⟨SameProcs.refl k, rfl, fun _ _ => rfl, rfl⟩
  · have hset := SameProcs.setProc k p (·.redirect eip useresp) fun a => ⟨_, _, _, rfl⟩
    rw [h]
    refine ⟨⟨hset.readyQueue, hset.idle, hset.roundRobin, hset.handlers, hset.proc⟩, rfl,
      fun q hq => ?_, ?_⟩
    · dsimp only
      rw [Kernel.setProc_of_ne k _ hq]
    · dsimp only
      rw [Kernel.setProc_self]
      rfl

/-- The three parts of `process_switch`. -/
def beginSwitch (k : Kernel) (p : ℕ) : Kernel :=
  { k.setProc k.currentProcess ({ · with state := .ready }) with currentProcess := p }

def deliverPending (k : Kernel) (p : ℕ) : Kernel :=
  if (k.procs p).signal ≠ 0 then deliverSignal k p else k

def endSwitch (k : Kernel) (p : ℕ) : Kernel × Registers :=
  (mmuLoadPdt (k.setProc p ({ · with state := .running })) (k.procs p).pdt, (k.procs p).r)

theorem processSwitch_eq (hne : k.currentProcess ≠ p) :
    processSwitch k p r = endSwitch (deliverPending (beginSwitch k p) p) p := by
  rw [processSwitch, if_pos hne]
  rfl

theorem beginSwitch_frame (k : Kernel) (p : ℕ) : SameProcs k (beginSwitch k p) ∧
    ∀ q, ((beginSwitch k p).procs q).r = (k.procs q).r := by
  have h := SameProcs.setProc k k.currentProcess ({ · with state := .ready }) fun a => ⟨_, _, _, rfl⟩
  refine ⟨⟨h.readyQueue, h.idle, h.roundRobin, h.handlers, h.proc⟩, fun q => ?_⟩
  rw [beginSwitch]
  dsimp only
  by_cases hq : q = k.currentProcess
  · rw [hq, Kernel.setProc_self]
  · rw [Kernel.setProc_of_ne k _ hq]

theorem deliverPending_frame (k : Kernel) (p : ℕ) : FrameSet k (deliverPending k p) p := by
  rw [deliverPending]
  split_ifs
  · exact deliverSignal_frame k p
  · exact ⟨SameProcs.refl k, rfl, fun _ _ => rfl, rfl⟩

/-- What `process_switch` does when it switches. -/
structure SwitchedTo (k k' : Kernel) (r' : Registers) (p : ℕ) : Prop where
  same : SameProcs k k'
  current : k'.currentProcess = p
  other : ∀ q, q ≠ p → (k'.procs q).r = (k.procs q).r
  eax : (k'.procs p).r.eax = (k.procs p).r.eax
  running : (k'.procs p).state = .running
  frame : r' = (k'.procs p).r

theorem processSwitch_switched (hne : k.currentProcess ≠ p) :
    SwitchedTo k (processSwitch k p r).1 (processSwitch k p r).2 p := by
  obtain ⟨hbegin, hframe⟩ := beginSwitch_frame k p
  have hcur : (beginSwitch k p).currentProcess = p := rfl
  rw [processSwitch_eq hne]
  generalize beginSwitch k p = k₁ at *
  have hpend := deliverPending_frame k₁ p
  generalize deliverPending k₁ p = k₂ at *
  have hlast := SameProcs.setProc k₂ p ({ · with state := .running }) fun a => ⟨_, _, _, rfl⟩
  rw [endSwitch, mmuLoadPdt_eq]
  refine ⟨(hbegin.trans hpend.same).trans
    ⟨hlast.readyQueue, hlast.idle, hlast.roundRobin, hlast.handlers, hlast.proc⟩,
    hpend.current.trans hcur, fun q hq => ?_, ?_, ?_, ?_⟩
  · dsimp only
    rw [Kernel.setProc_of_ne k₂ _ hq, hpend.other q hq, hframe]
  · dsimp only
    rw [Kernel.setProc_self, ← hframe, ← hpend.eax]
  · dsimp only
    rw [Kernel.setProc_self]
  · dsimp only
    rw [Kernel.setProc_self]

theorem processSwitch_same (k : Kernel) (p : ℕ) (r : Registers) :
    SameProcs k (processSwitch k p r).1 := by
  by_cases hne : k.currentProcess ≠ p
  · exact (processSwitch_switched hne).same
  · rw [processSwitch, if_neg hne]
    exact SameProcs.refl k

theorem processSwitch_current (k : Kernel) (p : ℕ) (r : Registers) :
    (processSwitch k p r).1.currentProcess = p := by
  by_cases hne : k.currentProcess = p
  · rw [processSwitch, if_neg (not_not.mpr hne)]
    exact hne
  · exact (processSwitch_switched hne).current

theorem processRoundRobin_same (k : Kernel) (r : Registers) :
    SameProcs k (processRoundRobin k r).1 := by
  rw [processRoundRobin]
  split_ifs
  · cases roundRobinNext k with
    | none => exact SameProcs.refl k
    | some node =>
      rw [Option.elim_some, processDoRoundRobin]
      split_ifs
      · exact SameProcs.refl k
      · exact (processUnload_same k r).trans (processSwitch_same _ _ _)
      · exact processSwitch_same _ _ _
  · exact SameProcs.refl k

theorem interrupt_same (k : Kernel) (r : Registers) (switch : Bool) :
    SameProcs k (interrupt k r switch).1 := by
  rw [interrupt]
  refine (processUnload_same k r).trans (SameProcs.trans ?_ (processReload_same _ _))
  split_ifs
  · exact processRoundRobin_same _ _
  · exact SameProcs.refl _

end Frames

/-! ### What a notification does -/

/-- Every waiting process of the queue is woken, and nothing else changes but memory. -/
theorem notify_procs (k : Kernel) (pid status : ℕ) (xs : List ℕ) :
    (∀ q, (xs.foldl (notifyNode pid status) k).procs q =
      if q ∈ xs ∧ (k.procs q).waitpid = pid then (k.procs q).wake pid else k.procs q) ∧
    { xs.foldl (notifyNode pid status) k with procs := k.procs, mmu := k.mmu } = k := by
  induction xs generalizing k with
  | nil => simp
  | cons x xs ih =>
    obtain ⟨ihp, ihr⟩ := ih (notifyNode pid status k x)
    have hself : (notifyNode pid status k x).procs x =
        if (k.procs x).waitpid = pid then (k.procs x).wake pid else k.procs x := by
      rw [notifyNode]
      split_ifs <;> simp
    have hrest : { notifyNode pid status k x with procs := k.procs, mmu := k.mmu } = k := by
      rw [notifyNode]
      split_ifs <;> rfl
    refine ⟨fun q => ?_, ?_⟩
    · rw [List.foldl_cons, ihp]
      by_cases hq : q = x
      · rw [hq, hself]
        by_cases hw : (k.procs x).waitpid = pid
        · have hmem : x ∈ x :: xs ∧ (k.procs x).waitpid = pid := ⟨List.mem_cons_self, hw⟩
          rw [if_pos hw, if_pos hmem]
          split_ifs <;> rfl
        · rw [if_neg hw, if_neg fun h => hw h.2, if_neg fun h => hw h.2]
      · rw [notifyNode_of_ne hq]
        simp [hq]
    · rw [List.foldl_cons]
      exact (congrArg (fun k' : Kernel => { k' with procs := k.procs, mmu := k.mmu }) ihr).trans hrest

end DosKernel
