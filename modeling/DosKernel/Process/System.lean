import DosKernel.Process.Routing
import DosKernel.Process.WaitTable

/-! The running system: timer interrupts, system calls and faults, in any order. What each
of them does to the processes and to those that wait is a list of operations on a table of
waiting processes. -/

namespace DosKernel

open Lib

inductive SystemOp
  | tick (r : Registers) (switch : Bool)
  | call (r : Registers)
  | fault (r : Registers)

/-- System calls and faults come from user mode, where the idle process is not. -/
def systemStep (work : ℕ → FileWork) (k : Kernel) : SystemOp → Option Kernel
  | .tick r switch => some (interrupt k r switch).1
  | .call r =>
    if k.currentProcess = k.kernelIdleProcess then none else (syscallHandler work k r).map Prod.fst
  | .fault r => if k.currentProcess = k.kernelIdleProcess then none else some (fault k r).1

/-- What the kernel has of the waiting processes. -/
def waitTable (k : Kernel) : WaitTable where
  queue := k.nodes k.readyQueue
  pid q := (k.procs q).pid
  waitpid q := (k.procs q).waitpid
  suspended q := (k.procs q).suspended

/-- What `syscall_kill` does, in its order: it notifies before it destroys. -/
def killOps (k : Kernel) (pid sig : ℕ) : List WaitAction :=
  if processByPid k (killedPid k pid) = 0 ∨ nsig ≤ sig ∨ sig = 0 then []
  else if sig = sigkill then [.wake (killedPid k pid), .remove (processByPid k (killedPid k pid))]
  else [.wake (killedPid k pid)]

def callOps (k : Kernel) (r : Registers) : List WaitAction :=
  if r.eax = 57 then
    (processFork k k.currentProcess).elim [] fun c =>
      if c.1 = 0 then [] else [.add c.1 (c.2.procs c.1).pid]
  else if r.eax = 60 then [.remove k.currentProcess, .wake (k.procs k.currentProcess).pid]
  else if r.eax = 61 then
    if processByPid k r.ebx = 0 ∨ (k.procs (processByPid k r.ebx)).state = .zombie then []
    else [.wait k.currentProcess r.ebx]
  else if r.eax = 62 then killOps k r.ebx r.ecx
  else if sleeps r.eax then [.resume k.currentProcess]
  else []

/-- What a step does. -/
def systemOps (k : Kernel) : SystemOp → List WaitAction
  | .tick _ _ => []
  | .call r => callOps (processUnload k r) r
  | .fault r =>
    if r.intNo = 14 then [.remove k.currentProcess, .wake (k.procs k.currentProcess).pid]
    else [.remove k.currentProcess]

/-- What `calloc` promises a fork in the kernel `k`: no memory, or memory that is no process
structure in use. -/
def ForkFresh (k : Kernel) : Prop :=
  ∀ c, processFork k k.currentProcess = some c → c.1 ∉ k.nodes k.readyQueue ∧
    c.1 ≠ k.kernelIdleProcess

/-- The allocator keeps its promise in every step. -/
def ForksFresh (k : Kernel) : SystemOp → Prop
  | .tick _ _ => True
  | .call r => r.eax = 57 → ForkFresh (processUnload k r)
  | .fault _ => True

/-! ### The kernel and the table -/

/-- Round robin is enabled, the queue is a list without the idle process, and `w` shows what
it holds. -/
structure Shows (k : Kernel) (w : WaitTable) : Prop where
  roundRobin : k.roundRobin = true
  list : IsList k.next k.readyQueue w.queue
  address : ∀ q ∈ w.queue, q < word32
  idle : k.kernelIdleProcess ∉ w.queue
  pid : ∀ q ∈ w.queue, (k.procs q).pid = w.pid q
  waitpid : ∀ q ∈ w.queue, (k.procs q).waitpid = w.waitpid q
  suspended : ∀ q ∈ w.queue, (k.procs q).suspended = w.suspended q

/-- Between two steps the current process is queued or idle. -/
structure Settled (k : Kernel) (w : WaitTable) : Prop where
  table : Shows k w
  current : k.currentProcess = k.kernelIdleProcess ∨ k.currentProcess ∈ w.queue

theorem newProcess_waits_for_none (k : Kernel) {a : Allocated} (entry stackBase pdt : ℕ)
    (h0 : a.node ≠ 0) : (newProcess k a entry stackBase pdt).pid = k.nextPid ∧
      (newProcess k a entry stackBase pdt).waitpid = 0 ∧
      (newProcess k a entry stackBase pdt).suspended = false ∧
      (newProcess k a entry stackBase pdt).next = 0 := by
  simp [newProcess, h0, Process.zero]

namespace Shows

variable {k k' : Kernel} {w : WaitTable} {p q pid : ℕ}

theorem nodes_eq (h : Shows k w) : k.nodes k.readyQueue = w.queue :=
  nodes_eq_of_isList h.list h.address

theorem same (h : Shows k w) (hs : SameProcs k k') : Shows k' w := by
  refine ⟨hs.roundRobin.trans h.roundRobin, ?_, h.address, ?_, fun q hq => ?_, fun q hq => ?_, fun q hq => ?_⟩
  · rw [hs.next_eq, hs.readyQueue]
    exact h.list
  · rw [hs.idle]
    exact h.idle
  · rw [hs.field_eq Process.pid fun _ _ _ _ => rfl, h.pid q hq]
  · rw [hs.field_eq Process.waitpid fun _ _ _ _ => rfl, h.waitpid q hq]
  · rw [hs.field_eq Process.suspended fun _ _ _ _ => rfl, h.suspended q hq]

theorem switch (h : Shows k w) (p : ℕ) (r : Registers) : Shows (processSwitch k p r).1 w :=
  h.same (processSwitch_same k p r)

/-- `process_notify_waitpid`. -/
theorem wake (h : Shows k w) (pid status : ℕ) :
    Shows (processNotifyWaitpid k pid status) (w.apply (.wake pid)) := by
  rw [processNotifyWaitpid, h.nodes_eq]
  obtain ⟨hprocs, hrest⟩ := notify_procs k pid status w.queue
  generalize w.queue.foldl (notifyNode pid status) k = k₁ at *
  have hnext : k₁.next = k.next := by
    funext q
    rw [Kernel.next, hprocs, Kernel.next]
    split_ifs <;> rfl
  have hcond : ∀ q ∈ w.queue, (q ∈ w.queue ∧ (k.procs q).waitpid = pid) =
      (q ∈ w.queue ∧ w.waitpid q = pid) := fun q hq => by rw [h.waitpid q hq]
  refine ⟨(congrArg Kernel.roundRobin hrest :).trans h.roundRobin, ?_, h.address, ?_, fun q hq => ?_, fun q hq => ?_, fun q hq => ?_⟩
  · rw [hnext, (congrArg Kernel.readyQueue hrest :)]
    exact h.list
  · rw [(congrArg Kernel.kernelIdleProcess hrest :)]
    exact h.idle
  · rw [hprocs, ← show w.pid q = (w.apply (.wake pid)).pid q from rfl, ← h.pid q hq]
    split_ifs <;> rfl
  · rw [hprocs]
    simp only [WaitTable.apply, hcond q hq, ← h.waitpid q hq]
    split_ifs <;> rfl
  · rw [hprocs]
    simp only [WaitTable.apply, hcond q hq, ← h.suspended q hq]
    split_ifs <;> rfl

/-- What `process_destroy` does to a queued process. -/
theorem destroyed (h : Shows k w) (hp : p ∈ w.queue) (exitCode : ℕ) : ∃ ys zs,
    w.queue = ys ++ p :: zs ∧ Destroyed k (processDestroy k p exitCode) p exitCode ys zs := by
  have hpi : p ≠ k.kernelIdleProcess := fun he => h.idle (he ▸ hp)
  obtain ⟨ys, zs, hsplit⟩ := List.append_of_mem hp
  have hlist := h.list
  have haddr := h.address
  rw [hsplit] at hlist haddr
  exact ⟨ys, zs, hsplit, processDestroy_spec hlist haddr hpi exitCode⟩

/-- `process_destroy`. -/
theorem remove (h : Shows k w) (hp : p ∈ w.queue) (exitCode : ℕ) :
    Shows (processDestroy k p exitCode) (w.apply (.remove p)) := by
  obtain ⟨ys, zs, hsplit, hd⟩ := h.destroyed hp exitCode
  have hnodup := h.list.nodup
  rw [hsplit] at hnodup
  have herase : (w.apply (.remove p)).queue = ys ++ zs := by
    rw [WaitTable.apply, hsplit, erase_eq_rest hnodup]
  have hsub : ∀ q ∈ (w.apply (.remove p)).queue, q ∈ w.queue := fun q hq => List.mem_of_mem_erase hq
  generalize processDestroy k p exitCode = k₁ at *
  refine ⟨(congrArg Kernel.roundRobin hd.rest :).trans h.roundRobin, ?_,
    fun q hq => h.address q (hsub q hq), ?_, fun q hq => ?_, fun q hq => ?_, fun q hq => ?_⟩
  · rw [herase]
    exact hd.list
  · rw [(congrArg Kernel.kernelIdleProcess hd.rest :)]
    exact fun hm => h.idle (hsub _ hm)
  · rw [hd.field_eq Process.pid fun _ _ _ _ _ => rfl]
    exact h.pid q (hsub q hq)
  · rw [hd.field_eq Process.waitpid fun _ _ _ _ _ => rfl]
    exact h.waitpid q (hsub q hq)
  · rw [hd.field_eq Process.suspended fun _ _ _ _ _ => rfl]
    exact h.suspended q (hsub q hq)

/-- The process structure keeps its pid when it is freed. -/
theorem destroyed_pid (h : Shows k w) (hp : p ∈ w.queue) (exitCode : ℕ) :
    ((processDestroy k p exitCode).procs p).pid = (k.procs p).pid := by
  obtain ⟨ys, zs, -, hd⟩ := h.destroyed hp exitCode
  exact hd.field_eq Process.pid (fun _ _ _ _ _ => rfl) p

/-- Assignments to other fields of one process structure. -/
theorem setProc (h : Shows k w) (f : Process → Process) (hnext : ∀ a, (f a).next = a.next)
    (hpid : ∀ a, (f a).pid = a.pid) (hwait : ∀ a, (f a).waitpid = a.waitpid)
    (hsus : ∀ a, (f a).suspended = a.suspended) : Shows (k.setProc p f) w := by
  refine ⟨h.roundRobin, ?_, h.address, h.idle, fun q hq => ?_, fun q hq => ?_, fun q hq => ?_⟩
  · exact h.list.congr fun q _ => k.setProc_field p Process.next hnext q
  · exact (k.setProc_field p Process.pid hpid q).trans (h.pid q hq)
  · exact (k.setProc_field p Process.waitpid hwait q).trans (h.waitpid q hq)
  · exact (k.setProc_field p Process.suspended hsus q).trans (h.suspended q hq)

/-- Nothing else of the kernel matters. -/
theorem congr (h : Shows k w) (hprocs : k'.procs = k.procs) (hqueue : k'.readyQueue = k.readyQueue)
    (hidle : k'.kernelIdleProcess = k.kernelIdleProcess) (hround : k'.roundRobin = true) :
    Shows k' w := by
  refine ⟨hround, ?_, h.address, hidle ▸ h.idle, ?_, ?_, ?_⟩
  · rw [hqueue]
    exact h.list.congr fun q _ => by rw [Kernel.next, hprocs, Kernel.next]
  · rw [hprocs]
    exact h.pid
  · rw [hprocs]
    exact h.waitpid
  · rw [hprocs]
    exact h.suspended

theorem work (h : Shows k w) (fw : FileWork) (r : Registers) (p : ℕ) :
    Shows (fw.run r k p).1 w := by
  obtain ⟨mmu, heap, files, fr, pdt, cwd, e⟩ := fw.frame r k p
  have hset : Shows (k.setProc p ({ · with r := fr, pdt := pdt, cwd := cwd })) w :=
    h.setProc _ (fun _ => rfl) (fun _ => rfl) (fun _ => rfl) fun _ => rfl
  rw [e]
  exact hset.congr rfl rfl rfl h.roundRobin

theorem suspend (h : Shows k w) (f : Process → Process) (b : Bool)
    (hnext : ∀ a, (f a).next = a.next) (hpid : ∀ a, (f a).pid = a.pid)
    (hwait : ∀ a, (f a).waitpid = a.waitpid) (hsus : ∀ a, (f a).suspended = b) :
    Shows (k.setProc p f) { w with suspended := Function.update w.suspended p b } := by
  refine ⟨h.roundRobin, ?_, h.address, h.idle, fun q hq => ?_, fun q hq => ?_, fun q hq => ?_⟩
  · exact h.list.congr fun q _ => k.setProc_field p Process.next hnext q
  · exact (k.setProc_field p Process.pid hpid q).trans (h.pid q hq)
  · exact (k.setProc_field p Process.waitpid hwait q).trans (h.waitpid q hq)
  · by_cases hqp : q = p
    · rw [hqp, Kernel.setProc_self, hsus]
      exact (Function.update_self p b w.suspended).symm
    · rw [Kernel.setProc_of_ne k _ hqp, h.suspended q hq]
      exact (Function.update_of_ne hqp b w.suspended).symm

theorem setWaitpid (h : Shows k w) (f : Process → Process) (pid : ℕ)
    (hnext : ∀ a, (f a).next = a.next) (hpid : ∀ a, (f a).pid = a.pid)
    (hwait : ∀ a, (f a).waitpid = pid) (hsus : ∀ a, (f a).suspended = a.suspended) :
    Shows (k.setProc p f) { w with waitpid := Function.update w.waitpid p pid } := by
  refine ⟨h.roundRobin, ?_, h.address, h.idle, fun q hq => ?_, fun q hq => ?_, fun q hq => ?_⟩
  · exact h.list.congr fun q _ => k.setProc_field p Process.next hnext q
  · exact (k.setProc_field p Process.pid hpid q).trans (h.pid q hq)
  · by_cases hqp : q = p
    · rw [hqp, Kernel.setProc_self, hwait]
      exact (Function.update_self p pid w.waitpid).symm
    · rw [Kernel.setProc_of_ne k _ hqp, h.waitpid q hq]
      exact (Function.update_of_ne hqp pid w.waitpid).symm
  · exact (k.setProc_field p Process.suspended hsus q).trans (h.suspended q hq)

/-- The process that `process_create` appends. -/
theorem create (h : Shows k w) {a : Allocated} (entry stackBase pdt : ℕ)
    (haddr : a.node < word32) (h0 : a.node ≠ 0) (hfresh : a.node ∉ w.queue) (hidle : a.node ≠ k.kernelIdleProcess) :
    Shows (processCreateAt k a entry stackBase pdt false) (w.apply (.add a.node k.nextPid)) := by
  obtain ⟨hpid, hwait, hsus, hlast⟩ := newProcess_waits_for_none k entry stackBase pdt h0
  have hself : (processFill k a entry stackBase pdt false).procs a.node =
      newProcess k a entry stackBase pdt := Function.update_self _ _ _
  have hne : ∀ q ∈ w.queue, q ≠ a.node := fun q hq he => hfresh (he ▸ hq)
  have hother : ∀ q ∈ w.queue, (processFill k a entry stackBase pdt false).procs q = k.procs q :=
    fun q hq => Function.update_of_ne (hne q hq) _ _
  rw [← hself] at hpid hwait hsus hlast
  have hlist : IsList (processFill k a entry stackBase pdt false).next
      (processFill k a entry stackBase pdt false).readyQueue w.queue :=
    h.list.congr fun q hq => by rw [Kernel.next, hother q hq, Kernel.next]
  rw [processCreateAt]
  obtain ⟨hlist', hsame⟩ := processAddReadyQueue_spec hlist h.address h0 hfresh hlast
  have hidle' : (processAddReadyQueue (processFill k a entry stackBase pdt false)
      a.node).kernelIdleProcess = k.kernelIdleProcess :=
    (congrArg Kernel.kernelIdleProcess hsame.rest :)
  have hround : (processAddReadyQueue (processFill k a entry stackBase pdt false)
      a.node).roundRobin = k.roundRobin := (congrArg Kernel.roundRobin hsame.rest :)
  generalize processAddReadyQueue (processFill k a entry stackBase pdt false) a.node = k₁ at *
  generalize processFill k a entry stackBase pdt false = k₀ at *
  have hmem : ∀ q ∈ w.queue ++ [a.node], q ∈ w.queue ∨ q = a.node := fun q hq => by simpa using hq
  refine ⟨hround.trans h.roundRobin, hlist', fun q hq => ?_, ?_, fun q hq => ?_, fun q hq => ?_,
    fun q hq => ?_⟩
  · rcases hmem q hq with hq | rfl
    exacts [h.address q hq, haddr]
  · rw [hidle']
    exact fun hm => (hmem _ hm).elim h.idle fun he => hidle he.symm
  · rw [hsame.pid_eq, WaitTable.add_pid]
    rcases hmem q hq with hq | rfl
    · rw [hother q hq, Function.update_of_ne (hne q hq), h.pid q hq]
    · rw [hpid, Function.update_self]
  · rw [hsame.field_eq Process.waitpid fun _ _ => rfl, WaitTable.add_waitpid]
    rcases hmem q hq with hq | rfl
    · rw [hother q hq, Function.update_of_ne (hne q hq), h.waitpid q hq]
    · rw [hwait, Function.update_self]
  · rw [hsame.field_eq Process.suspended fun _ _ => rfl, WaitTable.add_suspended]
    rcases hmem q hq with hq | rfl
    · rw [hother q hq, Function.update_of_ne (hne q hq), h.suspended q hq]
    · rw [hsus, Function.update_self]

/-- Without memory nothing is appended. -/
theorem create_null (h : Shows k w) {a : Allocated} {entry stackBase pdt : ℕ} (h0 : a.node = 0) :
    Shows (processCreateAt k a entry stackBase pdt false) w := by
  have hother : ∀ q ∈ w.queue, (processFill k a entry stackBase pdt false).procs q = k.procs q := by
    intro q hq
    exact Function.update_of_ne (h0 ▸ h.list.ne_zero hq) _ _
  have hlist : IsList (processFill k a entry stackBase pdt false).next
      (processFill k a entry stackBase pdt false).readyQueue w.queue :=
    h.list.congr fun q hq => by rw [Kernel.next, hother q hq, Kernel.next]
  rw [processCreateAt, h0]
  obtain ⟨hlist', hsame⟩ := processAddReadyQueue_null hlist h.address
  have hidle : (processAddReadyQueue (processFill k a entry stackBase pdt false)
      0).kernelIdleProcess = k.kernelIdleProcess :=
    (congrArg Kernel.kernelIdleProcess hsame.rest :)
  have hround : (processAddReadyQueue (processFill k a entry stackBase pdt false)
      0).roundRobin = k.roundRobin := (congrArg Kernel.roundRobin hsame.rest :)
  refine ⟨hround.trans h.roundRobin, hlist', h.address, hidle ▸ h.idle, fun q hq => ?_, fun q hq => ?_, fun q hq => ?_⟩
  · rw [hsame.pid_eq, hother q hq, h.pid q hq]
  · rw [hsame.field_eq Process.waitpid fun _ _ => rfl, hother q hq, h.waitpid q hq]
  · rw [hsame.field_eq Process.suspended fun _ _ => rfl, hother q hq, h.suspended q hq]

theorem fork (h : Shows k w) {c : ℕ × Kernel} (hc : processFork k p = some c)
    (hfresh : c.1 ∉ w.queue) (hidle : c.1 ≠ k.kernelIdleProcess) :
    Shows c.2 (if c.1 = 0 then w else w.apply (.add c.1 (c.2.procs c.1).pid)) := by
  obtain ⟨⟨a, k₁⟩, ha, rfl⟩ := Option.map_eq_some_iff.mp hc
  have hframe := processAllocate_frame ha
  have h₁ : Shows k₁ w := h.congr (congrArg Kernel.procs hframe :)
    (congrArg Kernel.readyQueue hframe :) (congrArg Kernel.kernelIdleProcess hframe :)
    ((congrArg Kernel.roundRobin hframe :).trans h.roundRobin)
  have hidle₁ : a.node ≠ k₁.kernelIdleProcess := by
    rw [(congrArg Kernel.kernelIdleProcess hframe :)]
    exact hidle
  have haddr := processAllocate_node_lt ha
  dsimp only at hfresh ⊢
  rw [processForkAt]
  split_ifs with h0
  · exact h₁.create_null h0
  · have hcreate := h₁.create (k₁.procs p).r.eip (k₁.procs p).r.useresp
      (mmuClonePdt k.mmu (k.procs p).pdt).1 haddr h0 hfresh hidle₁
    generalize processCreateAt k₁ a _ _ _ false = k₂ at hcreate ⊢
    have hset : Shows (k₂.setProc a.node (·.inherit (k₂.procs p) p)) _ :=
      hcreate.setProc _ (fun _ => rfl) (fun _ => rfl) (fun _ => rfl) fun _ => rfl
    have hpid : ((processInherit k₂ p a.node).procs a.node).pid = k₁.nextPid := by
      rw [processInherit_procs, Function.update_self, Process.inherit]
      dsimp only
      rw [hcreate.pid a.node (by simp), WaitTable.add_pid, Function.update_self]
    rw [hpid]
    exact hset.congr rfl rfl rfl hset.roundRobin

end Shows

/-! ### Steps -/

section Steps
variable {work : ℕ → FileWork} {k k' : Kernel} {w : WaitTable} {r : Registers}

theorem syscallWaitpid_shows (h : Shows k w) {pid status : ℕ} (ht : processByPid k pid ≠ 0)
    (hz : (k.procs (processByPid k pid)).state ≠ .zombie) :
    Shows (syscallWaitpid pid status k r).1 (w.apply (.wait k.currentProcess pid)) := by
  rw [syscallWaitpid, if_neg ht, if_neg hz]
  have hwait := h.setWaitpid (p := k.currentProcess) ({ · with waitpid := pid }) pid (fun _ => rfl)
    (fun _ => rfl) (fun _ => rfl) fun _ => rfl
  exact (hwait.switch _ r).suspend (p := k.currentProcess) (·.suspend status) true (fun _ => rfl) (fun _ => rfl)
    (fun _ => rfl) fun _ => rfl

theorem syscallExit_shows (h : Shows k w) (hcur : k.currentProcess ∈ w.queue) (exitCode : ℕ) :
    Shows (syscallExit exitCode k r).1
      (w.run [.remove k.currentProcess, .wake (k.procs k.currentProcess).pid]) := by
  have hswitch := (h.remove hcur exitCode).switch (processDestroy k k.currentProcess
    exitCode).kernelIdleProcess r
  have hpid : ((processIdle (processDestroy k k.currentProcess exitCode) r).1.procs
      k.currentProcess).pid = (k.procs k.currentProcess).pid := by
    rw [processIdle, (processSwitch_same _ _ _).field_eq Process.pid fun _ _ _ _ => rfl,
      h.destroyed_pid hcur]
  rw [syscallExit]
  dsimp only
  rw [hpid]
  exact hswitch.wake _ _

theorem syscallKill_shows (h : Shows k w) {pid sig : ℕ} {c : Kernel × Registers × ℕ}
    (hc : syscallKill pid sig k r = some c) : Shows c.1 (w.run (killOps k pid sig)) := by
  simp only [syscallKill] at hc
  rw [killOps]
  split_ifs at hc with hnone hbad hzero hkill hbusy
  · rw [if_pos (.inl hnone)]
    obtain rfl := Option.some.inj hc
    exact h
  · rw [if_pos (.inr (.inl hbad))]
    obtain rfl := Option.some.inj hc
    exact h
  · rw [if_pos (.inr (.inr hzero))]
    obtain rfl := Option.some.inj hc
    exact h
  · have hmem := (processByPid_mem h.list h.address hnone).1
    rw [if_neg (by tauto), if_pos hkill]
    rw [killTarget] at hc
    have hwoken := (h.wake (killedPid k pid) (sig * 65536)).remove hmem sigkill
    split_ifs at hc with hself hinit hinit
    · obtain rfl := Option.some.inj hc
      exact hwoken.switch _ r
    · obtain rfl := Option.some.inj hc
      exact hwoken
  · rw [if_neg (by tauto), if_neg hkill]
    obtain rfl := Option.some.inj hc
    exact h.wake _ _
  · rw [if_neg (by tauto), if_neg hkill]
    obtain rfl := Option.some.inj hc
    have hset : Shows ((processNotifyWaitpid k (killedPid k pid) (sig * 65536)).setProc
        (processByPid k (killedPid k pid)) ({ · with signal := sig })) _ :=
      (h.wake _ _).setProc _ (fun _ => rfl) (fun _ => rfl) (fun _ => rfl) fun _ => rfl
    exact hset

theorem syscallFork_shows (h : Shows k w) (hfresh : ForkFresh k) {c : Kernel × Registers × ℕ}
    (hc : syscallFork k r = some c) :
    Shows c.1 (w.run ((processFork k k.currentProcess).elim [] fun c =>
      if c.1 = 0 then [] else [.add c.1 (c.2.procs c.1).pid])) := by
  obtain ⟨d, hd, rfl⟩ := Option.map_eq_some_iff.mp hc
  obtain ⟨hmem, hidle⟩ := hfresh d hd
  rw [h.nodes_eq] at hmem
  have hfork := h.fork hd hmem hidle
  rw [hd, Option.elim_some]
  dsimp only
  split_ifs at hfork ⊢ with h0
  · exact hfork
  · have hset : Shows (d.2.setProc d.1 fun child => { child with r := { child.r with eax := 0 } }) _ :=
      hfork.setProc _ (fun _ => rfl) (fun _ => rfl) (fun _ => rfl) fun _ => rfl
    exact hset

theorem sleepingCall_shows (h : Shows k w) (fw : FileWork) :
    Shows (sleepingCall fw k r).1 (w.apply (.resume k.currentProcess)) := by
  have hasleep := (h.switch k.kernelIdleProcess r).suspend (p := k.currentProcess)
    ({ · with suspended := true }) true (fun _ => rfl) (fun _ => rfl) (fun _ => rfl) fun _ => rfl
  rw [sleepingCall, processIdle]
  dsimp only
  generalize (processSwitch k k.kernelIdleProcess r).1.setProc k.currentProcess
    ({ · with suspended := true }) = k₁ at hasleep ⊢
  obtain ⟨mmu, heap, files, fr, pdt, cwd, e⟩ :=
    fw.frame r { k₁ with roundRobin := false } k.currentProcess
  have hworked : Shows (k₁.setProc k.currentProcess ({ · with r := fr, pdt := pdt, cwd := cwd })) _ :=
    hasleep.setProc _ (fun _ => rfl) (fun _ => rfl) (fun _ => rfl) fun _ => rfl
  have hawake : Shows { (fw.run r { k₁ with roundRobin := false } k.currentProcess).1 with
      roundRobin := true } { w with
        suspended := Function.update w.suspended k.currentProcess true } := by
    rw [e]
    exact hworked.congr rfl rfl rfl rfl
  have hlast := (hawake.switch k.currentProcess (processSwitch k k.kernelIdleProcess r).2).suspend
    (p := k.currentProcess) ({ · with suspended := false }) false (fun _ => rfl) (fun _ => rfl)
    (fun _ => rfl) fun _ => rfl
  rw [Function.update_idem] at hlast
  exact hlast

theorem not_waiting_call (h : ¬ IsProcessCall r.eax) :
    r.eax ≠ 57 ∧ r.eax ≠ 60 ∧ r.eax ≠ 61 ∧ r.eax ≠ 62 := by
  rw [IsProcessCall] at h
  omega

/-- A system call does to the table what `callOps` says. -/
theorem runSyscall_shows (h : Shows k w) (hcur : k.currentProcess ∈ w.queue)
    (hfresh : r.eax = 57 → ForkFresh k) {c : Kernel × Registers × ℕ}
    (hc : runSyscall work k r = some c) : Shows c.1 (w.run (callOps k r)) := by
  rw [callOps]
  cases runSyscall_called hc with
  | signal no =>
    have hno : ¬ sleeps r.eax = true := by rw [no]; decide
    rw [if_neg (by omega), if_neg (by omega), if_neg (by omega), if_neg (by omega), if_neg hno]
    rw [syscallSignal]
    split_ifs
    · exact h
    · exact h
    · exact h.congr rfl rfl rfl h.roundRobin
  | pause no =>
    have hno : ¬ sleeps r.eax = true := by rw [no]; decide
    rw [if_neg (by omega), if_neg (by omega), if_neg (by omega), if_neg (by omega), if_neg hno]
    exact h.switch _ r
  | fork no hc =>
    rw [if_pos no]
    exact syscallFork_shows h (hfresh no) hc
  | exit no =>
    rw [if_neg (by omega), if_pos no]
    exact syscallExit_shows h hcur _
  | waitpid no =>
    rw [if_neg (by omega), if_neg (by omega), if_pos no]
    split_ifs with hblock
    · rw [syscallWaitpid]
      dsimp only
      split_ifs with hnone hzombie
      · exact h
      · exact h.congr rfl rfl rfl h.roundRobin
      · exact absurd hblock (not_or.mpr ⟨hnone, hzombie⟩)
    · rw [not_or] at hblock
      exact syscallWaitpid_shows h hblock.1 hblock.2
  | kill no hc =>
    rw [if_neg (by omega), if_neg (by omega), if_neg (by omega), if_pos no]
    exact syscallKill_shows h hc
  | sleeping no hsleeps =>
    obtain ⟨h57, h60, h61, h62⟩ := not_waiting_call no
    rw [if_neg h57, if_neg h60, if_neg h61, if_neg h62, if_pos hsleeps]
    exact sleepingCall_shows h _
  | direct no hsleeps =>
    obtain ⟨h57, h60, h61, h62⟩ := not_waiting_call no
    rw [if_neg h57, if_neg h60, if_neg h61, if_neg h62, if_neg hsleeps]
    exact h.work _ _ _
  | unknown no hsleeps =>
    obtain ⟨h57, h60, h61, h62⟩ := not_waiting_call no
    rw [if_neg h57, if_neg h60, if_neg h61, if_neg h62, if_neg hsleeps]
    exact h

theorem systemStep_call (hcur : k.currentProcess ≠ k.kernelIdleProcess)
    {c : Kernel × Registers × ℕ} (hc : runSyscall work (processUnload k r) r = some c) :
    systemStep work k (.call r) = some (processReload c.1 c.2.1).1 := by
  rw [systemStep, if_neg hcur, syscallHandler, hc]
  rfl

theorem Settled.calling (h : Settled k w) (hcur : k.currentProcess ≠ k.kernelIdleProcess) :
    Calling k w.queue :=
  ⟨h.table.roundRobin, h.table.list, h.table.address, h.current.resolve_left hcur, h.table.idle⟩

/-- `process_round_robin` goes to a process of the queue, if anywhere. -/
theorem processRoundRobin_current (h : Settled k w) :
    (processRoundRobin k r).1.currentProcess = k.currentProcess ∨
      (processRoundRobin k r).1.currentProcess ∈ w.queue := by
  rw [processRoundRobin]
  split_ifs
  · cases hnext : roundRobinNext k with
    | none => exact .inl rfl
    | some node =>
      have hmem := (roundRobinNext_mem h.table.list h.table.address h.current hnext).1
      rw [Option.elim_some, processDoRoundRobin, if_neg (h.table.list.ne_zero hmem)]
      exact .inr ((processSwitch_current _ node r).symm ▸ hmem)
  · exact .inl rfl

theorem Settled.unload (h : Settled k w) (r : Registers) : Settled (processUnload k r) w := by
  have hsame := processUnload_same k r
  refine ⟨h.table.same hsame, ?_⟩
  rw [(processUnload_spec h.table.roundRobin).current_eq, hsame.idle]
  exact h.current

theorem Settled.interrupt (h : Settled k w) (r : Registers) (switch : Bool) :
    Settled (interrupt k r switch).1 w := by
  refine ⟨h.table.same (interrupt_same k r switch), ?_⟩
  rw [(interrupt_same k r switch).idle, DosKernel.interrupt, processReload_current]
  have hu := h.unload r
  have hidle := (processUnload_same k r).idle
  split_ifs
  · rcases processRoundRobin_current (r := r) hu with hcur | hmem
    · rw [hcur, ← hidle]
      exact hu.current
    · exact .inr hmem
  · rw [← hidle]
    exact hu.current

theorem StaysInCaller.mem (hs : StaysInCaller k r) (hcur : k.currentProcess ∈ w.queue) :
    k.currentProcess ∈ (w.run (callOps k r)).queue := by
  obtain ⟨-, hexit, -, hkill⟩ := hs
  rw [callOps]
  split_ifs with h57 h61 hblock h62 hsleeps
  · cases processFork k k.currentProcess with
    | none => exact hcur
    | some c =>
      rw [Option.elim_some]
      split_ifs
      · exact hcur
      · exact List.mem_append_left _ hcur
  · exact hcur
  · exact hcur
  · rw [killOps]
    split_ifs with hno hsig
    · exact hcur
    · have hne := (hkill h62 hsig).resolve_left fun h0 => hno (.inl h0)
      exact (List.mem_erase_of_ne hne.symm).mpr hcur
    · exact hcur
  · exact hcur
  · exact hcur

theorem Settled.fault (h : Settled k w) (hcur : k.currentProcess ≠ k.kernelIdleProcess)
    (r : Registers) : Settled (fault k r).1 (w.run (systemOps k (.fault r))) := by
  have hu := h.unload r
  have hmem : k.currentProcess ∈ w.queue := h.current.resolve_left hcur
  have hcurrent := (processUnload_spec (r := r) h.table.roundRobin).current_eq
  have hpid : ((processUnload k r).procs k.currentProcess).pid = (k.procs k.currentProcess).pid :=
    (processUnload_same k r).field_eq Process.pid (fun _ _ _ _ => rfl) _
  rw [DosKernel.fault, systemOps]
  generalize processUnload k r = u at *
  have hidle : ∀ (k₁ : Kernel) (w₁ : WaitTable), Shows k₁ w₁ →
      Settled (processReload (processIdle k₁ r).1 (processIdle k₁ r).2).1 w₁ := by
    intro k₁ w₁ h₁
    have hsw : Shows (processIdle k₁ r).1 w₁ := h₁.switch _ r
    refine ⟨hsw.same (processReload_same _ _), .inl ?_⟩
    rw [processReload_current, (processReload_same _ _).idle, processIdle, processSwitch_current,
      (processSwitch_same _ _ _).idle]
  split_ifs
  · rw [panicHandler]
    rw [hcurrent, hu.table.destroyed_pid hmem, hpid]
    exact hidle _ _ ((hu.table.remove hmem _).wake _ _)
  · rw [processHandleInt, hcurrent]
    exact hidle _ _ (hu.table.remove hmem 1)

/-- Every step does to the table what `systemOps` says. -/
theorem Settled.step (h : Settled k w) {o : SystemOp} (hfresh : ForksFresh k o)
    (hstep : systemStep work k o = some k') : Settled k' (w.run (systemOps k o)) := by
  cases o with
  | tick r switch =>
    obtain rfl := Option.some.inj hstep
    exact h.interrupt r switch
  | call r =>
    rw [systemStep] at hstep
    split_ifs at hstep with hidle
    rw [syscallHandler, Option.map_map] at hstep
    obtain ⟨c, hc, rfl⟩ := Option.map_eq_some_iff.mp hstep
    have hu := h.unload r
    have hcall := (h.calling hidle).unload r
    have hrun := runSyscall_shows hu.table hcall.current hfresh hc
    refine ⟨hrun.same (processReload_same _ _), ?_⟩
    dsimp only [Function.comp]
    rw [processReload_current, (processReload_same _ _).idle]
    by_cases hs : StaysInCaller (processUnload k r) r
    · rw [runSyscall_current hcall hs hc]
      exact .inr (hs.mem hcall.current)
    · have hsaved : ((processUnload k r).procs (processUnload k r).currentProcess).r = r := by
        rw [(processUnload_spec h.table.roundRobin).current_eq,
          (processUnload_spec h.table.roundRobin).frame_eq, if_pos rfl]
      obtain ⟨_, hleft, -⟩ := runSyscall_left hcall hsaved hs hc
      exact .inl (hleft.current.trans hleft.same_idle.symm)
  | fault r =>
    rw [systemStep] at hstep
    split_ifs at hstep with hidle
    obtain rfl := Option.some.inj hstep
    exact h.fault hidle r

end Steps

/-- Two processes, and nobody waits. -/
def callingTable : WaitTable where
  queue := [16, 32]
  pid q := if q = 8 then 0 else q / 16
  waitpid _ := 0
  suspended _ := false

theorem callingProcess_settled : Settled callingProcess callingTable := by
  have h := callingProcess_calling
  refine ⟨⟨h.roundRobin, h.list, h.address, h.idle, ?_, ?_, ?_⟩, .inr h.current⟩
  all_goals decide

def callWith (no ebx ecx : ℕ) : Registers :=
  { Registers.zero with eax := no, ebx := ebx, ecx := ecx }

def faultFrame (intNo : ℕ) : Registers := { Registers.zero with intNo := intNo }

theorem callWith_fresh (no : ℕ) (hno : no ≠ 57) (ebx ecx : ℕ) (k : Kernel) :
    ForksFresh k (.call (callWith no ebx ecx)) := fun h => absurd h hno

end DosKernel
