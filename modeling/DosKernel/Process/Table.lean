import DosKernel.Lib.LinkedList
import DosKernel.Heap.Blocks
import DosKernel.Syscall.Read

/-! The process structures, the ready queue and the functions of `process.c` that
work on them alone. Process structures are found by their address; the queue is the
list of addresses from `ready_queue` along `next`. -/

namespace DosKernel

open Lib

structure Registers where
  cr4 : ℕ
  cr3 : ℕ
  cr2 : ℕ
  cr0 : ℕ
  gs : ℕ
  fs : ℕ
  es : ℕ
  ds : ℕ
  edi : ℕ
  esi : ℕ
  ebp : ℕ
  esp : ℕ
  ebx : ℕ
  edx : ℕ
  ecx : ℕ
  eax : ℕ
  intNo : ℕ
  errCode : ℕ
  eip : ℕ
  cs : ℕ
  eflags : ℕ
  useresp : ℕ
  ss : ℕ
  deriving DecidableEq

def Registers.zero : Registers := ⟨0, 0, 0, 0, 0, 0, 0, 0, 0, 0, 0, 0, 0, 0, 0, 0, 0, 0, 0, 0, 0, 0, 0⟩

/-- `enum ProcessState`. -/
inductive ProcessState
  | new
  | ready
  | running
  | waiting
  | stopped
  | zombie
  deriving DecidableEq

/-- `process_t`. The inode number stands for the `struct stat` of the working
directory. -/
structure Process where
  pid : ℕ
  uid : ℕ
  gid : ℕ
  euid : ℕ
  egid : ℕ
  state : ProcessState
  suspended : Bool
  preemptions : ℕ
  exitCode : ℕ
  signal : ℕ
  waitpid : ℕ
  waitpidStatus : ℕ
  cwd : ℕ
  pdt : ℕ
  r : Registers
  fdCount : ℕ
  fd : ℕ
  sigHandles : ℕ
  parent : ℕ
  next : ℕ

def Process.zero : Process :=
  ⟨0, 0, 0, 0, 0, .new, false, 0, 0, 0, 0, 0, 0, 0, .zero, 0, 0, 0, 0, 0⟩

/-- The state of the kernel. Arrays of descriptors and of signal handlers are found
by their address, as the process structures are; `rootIno` stands for the `struct
stat` of the root directory. -/
structure Kernel where
  mmu : Mmu
  cr3 : ℕ
  oldPdt : ℕ
  heap : Heap
  procs : ℕ → Process
  files : ℕ → ℕ → FileDescriptor
  handlers : ℕ → ℕ → ℕ
  readyQueue : ℕ
  currentProcess : ℕ
  kernelIdleProcess : ℕ
  roundRobin : Bool
  nextPid : ℕ
  rootIno : ℕ

namespace Kernel

/-- Assignments to fields of the process structure at `p`. -/
def setProc (k : Kernel) (p : ℕ) (f : Process → Process) : Kernel :=
  { k with procs := Function.update k.procs p (f (k.procs p)) }

@[simp] theorem setProc_self (k : Kernel) (p : ℕ) (f : Process → Process) :
    (k.setProc p f).procs p = f (k.procs p) := Function.update_self _ _ _

theorem setProc_of_ne (k : Kernel) {p q : ℕ} (f : Process → Process) (h : q ≠ p) :
    (k.setProc p f).procs q = k.procs q := Function.update_of_ne h _ _

theorem setProc_field {α : Type*} (k : Kernel) (p : ℕ) {f : Process → Process} (g : Process → α)
    (hg : ∀ a, g (f a) = g a) (q : ℕ) : g ((k.setProc p f).procs q) = g (k.procs q) := by
  by_cases hq : q = p
  · rw [hq, setProc_self, hg]
  · rw [setProc_of_ne k f hq]

/-- The field `next` of every process structure. -/
def next (k : Kernel) (p : ℕ) : ℕ := (k.procs p).next

/-- The nodes from `p` on along `next`. A list of 32-bit addresses without a cycle
has fewer nodes than that. -/
def nodes (k : Kernel) (p : ℕ) : List ℕ := walk k.next word32 p

end Kernel

/-! ### The ready queue -/

def processAddReadyQueue (k : Kernel) (p : ℕ) : Kernel :=
  if k.readyQueue = 0 then { k with readyQueue := p }
  else (k.nodes k.readyQueue).getLast?.elim k fun last => k.setProc last ({ · with next := p })

/-- The loop of `process_remove_ready_queue`; `prev` is `NULL` at the first node. -/
def removeFrom (k : Kernel) (p : ℕ) : (prev : ℕ) → List ℕ → Kernel
  | _, [] => k
  | prev, node :: rest =>
    if node = p then
      if prev ≠ 0 then k.setProc prev ({ · with next := (k.procs node).next })
      else { k with readyQueue := (k.procs node).next }
    else removeFrom k p node rest

def processRemoveReadyQueue (k : Kernel) (p : ℕ) : Kernel :=
  removeFrom k p 0 (k.nodes k.readyQueue)

def processByPid (k : Kernel) (pid : ℕ) : ℕ :=
  ((k.nodes k.readyQueue).find? fun node => (k.procs node).pid = pid).getD 0

/-! ### Switching -/

/-- `mmu_load_pdt`. It first reads the register into `current_pdt`. -/
def mmuLoadPdt (k : Kernel) (pdt : ℕ) : Kernel :=
  let k' := { k with mmu := { k.mmu with currentPdt := k.cr3 } }
  if pdt = k.cr3 then k' else { k' with cr3 := pdt }

def mmuLoadKernelPdt (k : Kernel) : Kernel :=
  if k.mmu.kernelPdt ≠ 0 then
    let k' := mmuLoadPdt k k.mmu.kernelPdt
    { k' with
      oldPdt := k'.mmu.currentPdt
      mmu := { k'.mmu with currentPdt := k'.mmu.kernelPdt } }
  else k

def processUnload (k : Kernel) (r : Registers) : Kernel :=
  if k.roundRobin then
    (mmuLoadKernelPdt k).setProc k.currentProcess fun p =>
      { p with r := r, state := .ready, preemptions := (p.preemptions + 1) % word32 }
  else k

def processReload (k : Kernel) (r : Registers) : Kernel × Registers :=
  if k.roundRobin then
    let p := k.currentProcess
    if (k.procs p).state = .running then (k, r)
    else (mmuLoadPdt (k.setProc p ({ · with state := .running })) (k.procs p).pdt, (k.procs p).r)
  else (k, r)

/-- The delivery of a pending signal in `process_switch`. -/
def deliverSignal (k : Kernel) (p : ℕ) : Kernel :=
  let proc := k.procs p
  let handler := k.handlers proc.sigHandles proc.signal
  if handler ≠ 0 ∧ handler ≠ 1 ∧ handler ≠ 2 ∧ handler ≠ 3 then
    let esp := proc.r.useresp
    let mem := mmuWritel k.mmu.mem proc.pdt ((esp + word32 - 4) % word32) proc.signal
    let mem := mmuWritel mem proc.pdt ((esp + word32 - 8) % word32) proc.r.eip
    { k.setProc p fun q => { q with
        r := { q.r with eip := handler, useresp := (esp + word32 - 8) % word32 } } with
      mmu := { k.mmu with mem := mem } }
  else k

def processSwitch (k : Kernel) (p : ℕ) (r : Registers) : Kernel × Registers :=
  if k.currentProcess ≠ p then
    let k := { k.setProc k.currentProcess ({ · with state := .ready }) with currentProcess := p }
    let k := if (k.procs p).signal ≠ 0 then deliverSignal k p else k
    (mmuLoadPdt (k.setProc p ({ · with state := .running })) (k.procs p).pdt, (k.procs p).r)
  else (k, r)

def processDoRoundRobin (k : Kernel) (p : ℕ) (r : Registers) : Kernel × Registers :=
  if p = 0 then (k, r)
  else
    processSwitch (if k.currentProcess ≠ k.kernelIdleProcess then processUnload k r else k) p r

/-- The test of both loops of `process_round_robin`. -/
def canRun (k : Kernel) (node : ℕ) : Bool :=
  !(k.procs node).suspended && decide ((k.procs node).state = .ready)

/-- The process that `process_round_robin` switches to: the first that can run behind
the current one, else the first before it. -/
def roundRobinNext (k : Kernel) : Option ℕ :=
  let behind := if k.currentProcess ≠ 0 ∧ k.currentProcess ≠ k.kernelIdleProcess then
    (k.nodes (k.procs k.currentProcess).next).find? (canRun k) else none
  behind.or (((k.nodes k.readyQueue).takeWhile (· ≠ k.currentProcess)).find? (canRun k))

def processRoundRobin (k : Kernel) (r : Registers) : Kernel × Registers :=
  if k.roundRobin then
    (roundRobinNext k).elim (k, r) fun node => processDoRoundRobin k node r
  else (k, r)

def processIdle (k : Kernel) (r : Registers) : Kernel × Registers :=
  processSwitch k k.kernelIdleProcess r

end DosKernel
