import DosKernel.Process.System

/-! Signals. `kill` leaves a signal in the process structure, and `process_switch` sends the
process to its handler. The signal stays there, so the next switch to the process sends it
to its handler again. -/

namespace DosKernel

open Lib

/-- The handler of the pending signal of `p`. -/
def pendingHandler (k : Kernel) (p : ℕ) : ℕ := k.handlers (k.procs p).sigHandles (k.procs p).signal

/-- The call `process_switch(p)` redirects `p` to its handler. -/
def redirects (k : Kernel) (p : ℕ) : Bool :=
  k.currentProcess ≠ p ∧ (k.procs p).signal ≠ 0 ∧ pendingHandler k p ≠ 0 ∧
    pendingHandler k p ≠ 1 ∧ pendingHandler k p ≠ 2 ∧ pendingHandler k p ≠ 3

/-- The frame that a switch leaves is that of the handler, or the saved one. -/
theorem processSwitch_redirects {k : Kernel} {p : ℕ} {r : Registers} (hne : k.currentProcess ≠ p) :
    (processSwitch k p r).2 = if redirects k p then
      { (k.procs p).r with
        eip := pendingHandler k p, useresp := ((k.procs p).r.useresp + word32 - 8) % word32 }
    else (k.procs p).r := by
  have hproc : (beginSwitch k p).procs p = k.procs p := by
    rw [beginSwitch]
    dsimp only
    rw [Kernel.setProc_of_ne k _ hne.symm]
  have hhandler : (beginSwitch k p).handlers ((beginSwitch k p).procs p).sigHandles
      ((beginSwitch k p).procs p).signal = pendingHandler k p := by
    rw [hproc]
    rfl
  rw [processSwitch_eq hne, endSwitch, deliverPending]
  dsimp only
  by_cases hred : redirects k p = true
  · obtain ⟨-, hsig, hset⟩ := of_decide_eq_true hred
    rw [if_pos hred, hproc, if_pos hsig, deliverSignal]
    dsimp only
    rw [hhandler, if_pos hset, hproc, Kernel.setProc_self, hproc]
  · have hno : ¬ ((k.procs p).signal ≠ 0 ∧ pendingHandler k p ≠ 0 ∧ pendingHandler k p ≠ 1 ∧
        pendingHandler k p ≠ 2 ∧ pendingHandler k p ≠ 3) := fun h => hred (decide_eq_true ⟨hne, h⟩)
    rw [if_neg hred, hproc]
    split_ifs with hsig
    · rw [deliverSignal]
      dsimp only
      rw [hhandler, if_neg fun h => hno ⟨hsig, h⟩, hproc]
    · rw [hproc]

inductive SignalOp
  | signal (signum handler : ℕ) (r : Registers)
  | kill (pid sig : ℕ) (r : Registers)
  | switch (p : ℕ) (r : Registers)

def killed (k : Kernel) (pid : ℕ) : ℕ := processByPid k (killedPid k pid)

/-- The call of `process_switch` in a step, with the kernel it is made in: `kill` goes idle
when the caller has killed itself. -/
def switchIn (k : Kernel) : SignalOp → Option (Kernel × ℕ)
  | .signal _ _ _ => none
  | .kill pid sig _ =>
    if killed k pid ≠ 0 ∧ sig = sigkill ∧ killed k pid = k.currentProcess then
      let k := processDestroy (processNotifyWaitpid k (killedPid k pid) (sig * 65536))
        (killed k pid) sigkill
      some (k, k.kernelIdleProcess)
    else none
  | .switch p _ => some (k, p)

/-- The kernel and what the run has counted: the calls of `kill` that returned 0 and the
redirections, for each process and signal, and which processes were redirected. -/
structure SignalState where
  kernel : Kernel
  accepted : ℕ → ℕ → ℕ
  delivered : ℕ → ℕ → ℕ
  redirected : ℕ → Bool

/-- One more for the process `p` and the signal `n`. -/
def bump (f : ℕ → ℕ → ℕ) (p n : ℕ) : ℕ → ℕ → ℕ := Function.update f p (Function.update (f p) n (f p n + 1))

namespace SignalState

/-- No signal was sent yet. -/
def start (k : Kernel) : SignalState := ⟨k, fun _ _ => 0, fun _ _ => 0, fun _ => false⟩

/-- A call `process_switch(p)` in the kernel `k` is counted. -/
def count (s : SignalState) (k : Kernel) (p : ℕ) : SignalState :=
  if redirects k p then
    { s with
      delivered := bump s.delivered p (k.procs p).signal
      redirected := Function.update s.redirected p true }
  else s

def countSwitch (s : SignalState) (o : SignalOp) : SignalState :=
  (switchIn s.kernel o).elim s fun c => s.count c.1 c.2

end SignalState

/-- Processes make the system calls; only queued processes and the idle one are switched to. -/
def signalStep (s : SignalState) : SignalOp → Option SignalState
  | .signal signum handler r =>
    if s.kernel.currentProcess = s.kernel.kernelIdleProcess then none
    else some { s with kernel := (syscallSignal signum handler s.kernel r).1 }
  | .kill pid sig r =>
    if s.kernel.currentProcess = s.kernel.kernelIdleProcess then none
    else (syscallKill pid sig s.kernel r).map fun c =>
      { s.countSwitch (.kill pid sig r) with
        kernel := c.1
        accepted := if c.2.2 = 0 then bump s.accepted (killed s.kernel pid) sig else s.accepted }
  | .switch p r =>
    if p ∈ s.kernel.nodes s.kernel.readyQueue ∨ p = s.kernel.kernelIdleProcess then
      some { s.countSwitch (.switch p r) with kernel := (processSwitch s.kernel p r).1 }
    else none

/-- A process that was redirected is not redirected again. -/
def RedirectedOnce (s : SignalState) : SignalOp → Prop
  | .signal _ _ _ => True
  | .kill _ _ _ => True
  | .switch p _ => redirects s.kernel p = true → s.redirected p = false

instance (s : SignalState) : (o : SignalOp) → Decidable (RedirectedOnce s o)
  | .signal _ _ _ => .isTrue trivial
  | .kill _ _ _ => .isTrue trivial
  | .switch p _ => inferInstanceAs (Decidable (redirects s.kernel p = true → s.redirected p = false))

section Steps
variable {k : Kernel} {w : WaitTable} {s t : SignalState} {r : Registers} {pid sig : ℕ}

/-- The two kernels have the same idle process and the same pending signals. -/
def SameSignals (k k' : Kernel) : Prop :=
  k'.kernelIdleProcess = k.kernelIdleProcess ∧ ∀ q, (k'.procs q).signal = (k.procs q).signal

theorem notify_signals (k : Kernel) (pid status : ℕ) :
    SameSignals k (processNotifyWaitpid k pid status) := by
  obtain ⟨hprocs, hrest⟩ := notify_procs k pid status (k.nodes k.readyQueue)
  refine ⟨(congrArg Kernel.kernelIdleProcess hrest :), fun q => ?_⟩
  rw [processNotifyWaitpid, hprocs]
  split_ifs <;> rfl

/-- The end of a `SIGKILL`. -/
theorem killed_signals (h : Shows k w) (hne : killed k pid ≠ 0) (status : ℕ) :
    SameSignals k (processDestroy (processNotifyWaitpid k (killedPid k pid) status)
      (killed k pid) sigkill) := by
  have hmem := (processByPid_mem h.list h.address hne).1
  obtain ⟨hidle, hsig⟩ := notify_signals k (killedPid k pid) status
  obtain ⟨ys, zs, -, hd⟩ := (h.wake (killedPid k pid) status).destroyed hmem sigkill
  refine ⟨(congrArg Kernel.kernelIdleProcess hd.rest :).trans hidle, fun q => ?_⟩
  exact (hd.field_eq Process.signal (fun _ _ _ _ _ => rfl) q).trans (hsig q)

/-- `kill` leaves the signals alone, or returns 0 and leaves one in its target. -/
theorem syscallKill_signals (h : Shows k w) {c : Kernel × Registers × ℕ}
    (hc : syscallKill pid sig k r = some c) : SameSignals k c.1 ∨
    c.1.kernelIdleProcess = k.kernelIdleProcess ∧ killed k pid ∈ w.queue ∧ c.2.2 = 0 ∧
      ∀ q, (c.1.procs q).signal = if q = killed k pid then sig else (k.procs q).signal := by
  simp only [syscallKill] at hc
  split_ifs at hc with hnone hbad hzero hkill hbusy
  · obtain rfl := Option.some.inj hc
    exact .inl ⟨rfl, fun _ => rfl⟩
  · obtain rfl := Option.some.inj hc
    exact .inl ⟨rfl, fun _ => rfl⟩
  · obtain rfl := Option.some.inj hc
    exact .inl ⟨rfl, fun _ => rfl⟩
  · obtain ⟨hidle, hsig⟩ := killed_signals h hnone (sig * 65536)
    rw [killTarget] at hc
    split_ifs at hc
    · obtain rfl := Option.some.inj hc
      have hsw := processSwitch_same (processDestroy (processNotifyWaitpid k (killedPid k pid)
        (sig * 65536)) (killed k pid) sigkill) (processDestroy (processNotifyWaitpid k
        (killedPid k pid) (sig * 65536)) (killed k pid) sigkill).kernelIdleProcess r
      exact .inl ⟨hsw.idle.trans hidle, fun q =>
        (hsw.field_eq Process.signal (fun _ _ _ _ => rfl) q).trans (hsig q)⟩
    · obtain rfl := Option.some.inj hc
      exact .inl ⟨hidle, hsig⟩
  · obtain rfl := Option.some.inj hc
    exact .inl (notify_signals k _ _)
  · obtain rfl := Option.some.inj hc
    obtain ⟨hidle, hsig⟩ := notify_signals k (killedPid k pid) (sig * 65536)
    refine .inr ⟨hidle, (processByPid_mem h.list h.address hnone).1, rfl, fun q => ?_⟩
    rw [killed]
    split_ifs with hq
    · rw [hq, Kernel.setProc_self]
    · rw [Kernel.setProc_of_ne _ _ hq, hsig]

/-- What a run keeps: no process has more redirections than accepted signals, and a pending
signal that its process was not redirected for is one more accepted. -/
structure SignalInv (s : SignalState) (w : WaitTable) : Prop where
  table : Shows s.kernel w
  idle : (s.kernel.procs s.kernel.kernelIdleProcess).signal = 0
  count : ∀ p n, s.delivered p n ≤ s.accepted p n
  pending : ∀ p ∈ w.queue, (s.kernel.procs p).signal ≠ 0 → s.redirected p = false →
    s.delivered p (s.kernel.procs p).signal < s.accepted p (s.kernel.procs p).signal

theorem bump_self (f : ℕ → ℕ → ℕ) (p n : ℕ) : bump f p n p n = f p n + 1 := by
  rw [bump, Function.update_self, Function.update_self]

theorem bump_of_ne (f : ℕ → ℕ → ℕ) {p q n m : ℕ} (h : ¬ (q = p ∧ m = n)) :
    bump f p n q m = f q m := by
  rw [bump]
  by_cases hq : q = p
  · rw [hq, Function.update_self, Function.update_of_ne fun hm => h ⟨hq, hm⟩]
  · rw [Function.update_of_ne hq]

theorem le_bump (f : ℕ → ℕ → ℕ) (p n q m : ℕ) : f q m ≤ bump f p n q m := by
  by_cases h : q = p ∧ m = n
  · rw [h.1, h.2, bump_self]
    exact Nat.le_succ _
  · rw [bump_of_ne f h]

/-- The switch inside `kill` redirects nobody: it goes to the idle process. -/
theorem SignalInv.countSwitch_kill (h : SignalInv s w) :
    s.countSwitch (.kill pid sig r) = s := by
  rw [SignalState.countSwitch, switchIn]
  split_ifs with hself
  · obtain ⟨hidle, hsig⟩ := killed_signals h.table hself.1 (sig * 65536)
    rw [Option.elim_some, SignalState.count, if_neg]
    intro hred
    obtain ⟨-, hpending, -⟩ := of_decide_eq_true hred
    dsimp only at hpending
    rw [hidle, hsig] at hpending
    exact hpending h.idle
  · rfl

theorem mem_of_mem_killOps (k : Kernel) (pid sig : ℕ) {q : ℕ}
    (hq : q ∈ (w.run (killOps k pid sig)).queue) : q ∈ w.queue := by
  rw [killOps] at hq
  split_ifs at hq
  · exact hq
  · exact List.mem_of_mem_erase hq
  · exact hq

theorem SignalInv.kill (h : SignalInv s w) {c : Kernel × Registers × ℕ}
    (hc : syscallKill pid sig s.kernel r = some c) :
    SignalInv { s with
      kernel := c.1
      accepted := if c.2.2 = 0 then bump s.accepted (killed s.kernel pid) sig else s.accepted }
      (w.run (killOps s.kernel pid sig)) := by
  have hle : ∀ p n, s.accepted p n ≤
      (if c.2.2 = 0 then bump s.accepted (killed s.kernel pid) sig else s.accepted) p n := by
    intro p n
    split_ifs
    · exact le_bump _ _ _ _ _
    · exact le_rfl
  have hcount := fun p n => (h.count p n).trans (hle p n)
  rcases syscallKill_signals h.table hc with ⟨hidle, hsig⟩ | ⟨hidle, hmem, hv, hsig⟩
  · refine ⟨syscallKill_shows h.table hc, ?_, hcount, fun p hp hne hred => ?_⟩
    · dsimp only
      rw [hidle, hsig]
      exact h.idle
    · dsimp only at hne hred ⊢
      rw [hsig] at hne ⊢
      exact (h.pending p (mem_of_mem_killOps _ _ _ hp) hne hred).trans_le (hle _ _)
  · refine ⟨syscallKill_shows h.table hc, ?_, hcount, fun p hp hne hred => ?_⟩
    · have hni : s.kernel.kernelIdleProcess ≠ killed s.kernel pid :=
        fun he => h.table.idle (he ▸ hmem)
      dsimp only
      rw [hidle, hsig, if_neg hni]
      exact h.idle
    · dsimp only at hne hred ⊢
      rw [hsig] at hne ⊢
      by_cases hpk : p = killed s.kernel pid
      · rw [if_pos hpk, if_pos hv, hpk, bump_self]
        exact Nat.lt_succ_of_le (h.count _ _)
      · rw [if_neg hpk] at hne ⊢
        exact (h.pending p (mem_of_mem_killOps _ _ _ hp) hne hred).trans_le (hle _ _)

theorem SignalInv.switch (h : SignalInv s w) {p : ℕ}
    (hp : p ∈ w.queue ∨ p = s.kernel.kernelIdleProcess)
    (honce : redirects s.kernel p = true → s.redirected p = false) :
    SignalInv { s.countSwitch (.switch p r) with kernel := (processSwitch s.kernel p r).1 } w := by
  have hsame := processSwitch_same s.kernel p r
  have hsig := hsame.field_eq Process.signal fun _ _ _ _ => rfl
  have hidle : ((processSwitch s.kernel p r).1.procs
      (processSwitch s.kernel p r).1.kernelIdleProcess).signal = 0 := by
    rw [hsame.idle, hsig]
    exact h.idle
  have htable := h.table.switch p r
  rw [SignalState.countSwitch, switchIn, Option.elim_some, SignalState.count]
  generalize (processSwitch s.kernel p r).1 = k' at *
  split_ifs with hred
  · obtain ⟨-, hne, -⟩ := of_decide_eq_true hred
    have hmem : p ∈ w.queue := hp.resolve_right fun he => hne (he ▸ h.idle)
    have hroom := h.pending p hmem hne (honce hred)
    refine ⟨htable, hidle, fun q n => ?_, fun q hq hqne hqred => ?_⟩
    · dsimp only
      by_cases hqn : q = p ∧ n = (s.kernel.procs p).signal
      · rw [hqn.1, hqn.2, bump_self]
        exact hroom
      · rw [bump_of_ne _ hqn]
        exact h.count q n
    · dsimp only at hqne hqred ⊢
      rw [hsig] at hqne ⊢
      have hqp : q ≠ p := by
        rintro rfl
        rw [Function.update_self] at hqred
        exact absurd hqred (by decide)
      rw [Function.update_of_ne hqp] at hqred
      rw [bump_of_ne _ fun hc => hqp hc.1]
      exact h.pending q hq hqne hqred
  · refine ⟨htable, hidle, h.count, fun q hq hqne hqred => ?_⟩
    dsimp only at hqne hqred ⊢
    rw [hsig] at hqne ⊢
    exact h.pending q hq hqne hqred

theorem SignalInv.step {o : SignalOp} (h : SignalInv s w) (hc : RedirectedOnce s o)
    (hstep : signalStep s o = some t) : ∃ w', SignalInv t w' := by
  cases o with
  | signal signum handler r =>
    rw [signalStep] at hstep
    split_ifs at hstep
    obtain rfl := Option.some.inj hstep
    refine ⟨w, ?_⟩
    rw [syscallSignal]
    split_ifs
    · exact h
    · exact h
    · exact ⟨h.table.congr rfl rfl rfl h.table.roundRobin, h.idle, h.count, h.pending⟩
  | kill pid sig r =>
    rw [signalStep] at hstep
    split_ifs at hstep
    obtain ⟨c, hkill, rfl⟩ := Option.map_eq_some_iff.mp hstep
    rw [h.countSwitch_kill]
    exact ⟨_, h.kill hkill⟩
  | switch p r =>
    rw [signalStep, h.table.nodes_eq] at hstep
    split_ifs at hstep with hp
    obtain rfl := Option.some.inj hstep
    exact ⟨w, h.switch hp hc⟩

/-- Over a run in which no process that was redirected is redirected again, the switches to a
process redirect it for a signal at most as often as `kill` accepted that signal for it. -/
theorem delivered_le_accepted {os : List SignalOp} (hk : Shows k w)
    (hsig : ∀ q, q ∈ w.queue ∨ q = k.kernelIdleProcess → (k.procs q).signal = 0)
    (hrun : Run signalStep RedirectedOnce (.start k) os s) (p n : ℕ) :
    s.delivered p n ≤ s.accepted p n := by
  have hstart : SignalInv (.start k) w := by
    refine ⟨hk, hsig _ (.inr rfl), fun _ _ => le_rfl, fun q hq hne => ?_⟩
    exact absurd (hsig q (.inl hq)) hne
  obtain ⟨w', hinv⟩ : ∃ w', SignalInv s w' :=
    hrun.invariant (I := fun s => ∃ w', SignalInv s w')
      (fun _ _ _ hs hc hstep => hs.elim fun _ hs => hs.step hc hstep) ⟨w, hstart⟩
  exact hinv.count p n

end Steps

/-- Process 2 sets a handler for the signal 10, process 1 sends it, and process 2 is switched
to. -/
def sendTen : List SignalOp :=
  [.switch 32 .zero, .signal 10 0x1000 .zero, .switch 16 .zero, .kill 2 10 .zero, .switch 32 .zero]

/-- The same, and process 2 is switched to once more. -/
def sendTenSwitch : List SignalOp := sendTen ++ [.switch 16 .zero, .switch 32 .zero]

theorem delivered_le_accepted_of_send : ∃ s,
    Run signalStep RedirectedOnce (.start callingProcess) sendTen s ∧ s.delivered 32 10 = 1 ∧
    s.delivered 32 10 ≤ s.accepted 32 10 := by
  have hcount : (sendTen.foldlM (fun s o => if RedirectedOnce s o then signalStep s o else none)
      (.start callingProcess)).map (fun s : SignalState => s.delivered 32 10) = some 1 := by
    decide +kernel
  obtain ⟨s, hs, hcount⟩ := Option.map_eq_some_iff.mp hcount
  have hrun := Run.of_checked hs
  have hsig : ∀ q, q ∈ [16, 32] ∨ q = 8 → (callingProcess.procs q).signal = 0 := by
    rintro q (hq | rfl)
    · revert q
      decide
    · rfl
  exact ⟨s, hrun, hcount, delivered_le_accepted callingProcess_settled.table hsig hrun 32 10⟩

/-- The signal that `kill` accepted once is delivered twice. -/
theorem delivered_twice_of_switch : ∃ s,
    Run signalStep Anything (.start callingProcess) sendTenSwitch s ∧
    s.delivered 32 10 = 2 ∧ s.accepted 32 10 = 1 := by
  have hcounts : (sendTenSwitch.foldlM
      (fun s o => if Anything s o then signalStep s o else none) (.start callingProcess)).map
      (fun s : SignalState => (s.delivered 32 10, s.accepted 32 10)) = some (2, 1) := by
    decide +kernel
  obtain ⟨s, hs, hcounts⟩ := Option.map_eq_some_iff.mp hcounts
  obtain ⟨hdelivered, haccepted⟩ := Prod.mk.inj hcounts
  exact ⟨s, .of_checked hs, hdelivered, haccepted⟩

end DosKernel
