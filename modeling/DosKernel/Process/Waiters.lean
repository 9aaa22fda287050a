import DosKernel.Process.System

/-! Waiting processes in the running system. A waiting process is not left behind when the
process it waits for ends, unless that one ends by an exception other than a page fault; and
it is woken only behind that end, unless a signal is sent to the process it waits for. -/

namespace DosKernel

open Lib

/-! ### Nobody waits for a process that is gone -/

/-- Every pid that a queued process is suspended for belongs to a queued process. -/
def WaitersServed (k : Kernel) : Prop :=
  ∀ q ∈ k.nodes k.readyQueue, (k.procs q).suspended = true → (k.procs q).waitpid ≠ 0 →
    processByPid k (k.procs q).waitpid ≠ 0

instance (k : Kernel) : Decidable (WaitersServed k) :=
  inferInstanceAs (Decidable (∀ q ∈ k.nodes k.readyQueue, (k.procs q).suspended = true →
    (k.procs q).waitpid ≠ 0 → processByPid k (k.procs q).waitpid ≠ 0))

/-- Nobody else waits for a process that takes an exception other than a page fault. -/
def FaultUnwaited (k : Kernel) : SystemOp → Prop
  | .tick _ _ => True
  | .call _ => True
  | .fault r => r.intNo ≠ 14 → ∀ q ∈ k.nodes k.readyQueue, q ≠ k.currentProcess →
    ¬ (waitTable k).Waits q (k.procs k.currentProcess).pid

/-- The allocator keeps its promise and no exception hits a process that is waited for. -/
def WaitersReleased (k : Kernel) (o : SystemOp) : Prop := ForksFresh k o ∧ FaultUnwaited k o

section Served
variable {work : ℕ → FileWork} {k k' : Kernel} {w : WaitTable} {r : Registers} {o : SystemOp}

theorem Shows.waits_iff (h : Shows k w) {q : ℕ} (hq : q ∈ w.queue) (pid : ℕ) :
    (waitTable k).Waits q pid ↔ w.Waits q pid := by
  rw [WaitTable.Waits, WaitTable.Waits, ← h.suspended q hq, ← h.waitpid q hq]
  rfl

theorem Shows.served_iff (h : Shows k w) : WaitersServed k ↔ w.Served := by
  have hfound : ∀ pid, processByPid k pid ≠ 0 ↔ ∃ t ∈ w.queue, w.pid t = pid := by
    intro pid
    constructor
    · intro hne
      obtain ⟨hmem, hpid⟩ := processByPid_mem h.list h.address hne
      exact ⟨_, hmem, (h.pid _ hmem).symm.trans hpid⟩
    · rintro ⟨t, ht, hpid⟩ h0
      rw [processByPid, h.nodes_eq] at h0
      obtain ⟨q, hq⟩ := Option.isSome_iff_exists.mp (List.find?_isSome.mpr
        (⟨t, ht, by simp [h.pid t ht, hpid]⟩ : ∃ x ∈ w.queue, decide ((k.procs x).pid = pid) = true))
      rw [hq, Option.getD_some] at h0
      exact h.list.ne_zero (List.mem_of_find?_eq_some hq) h0
  rw [WaitersServed, WaitTable.Served, h.nodes_eq]
  refine forall₂_congr fun q hq => ?_
  rw [hfound, h.suspended q hq, h.waitpid q hq]

theorem killOps_served (h : Shows k w) (hw : w.Served) (pid sig : ℕ) :
    (w.run (killOps k pid sig)).Served := by
  rw [killOps]
  split_ifs with hno hkill
  · exact hw
  · have hne : processByPid k (killedPid k pid) ≠ 0 := fun h0 => hno (.inl h0)
    obtain ⟨hmem, hpid⟩ := processByPid_mem h.list h.address hne
    exact hw.wake_remove h.list.nodup ((h.pid _ hmem).symm.trans hpid)
  · exact hw.wake

theorem callOps_served (h : Shows k w) (hw : w.Served) (hcur : k.currentProcess ∈ w.queue)
    (hfresh : r.eax = 57 → ForkFresh k) : (w.run (callOps k r)).Served := by
  rw [callOps]
  split_ifs with h57 h60 h61 hblock h62 hsleeps
  · cases hfork : processFork k k.currentProcess with
    | none => exact hw
    | some c =>
      have hmem := (hfresh h57 c hfork).1
      rw [h.nodes_eq] at hmem
      rw [Option.elim_some]
      split_ifs
      · exact hw
      · exact hw.add hmem
  · rw [h.pid _ hcur]
    exact hw.remove.wake
  · exact hw
  · obtain ⟨hmem, hpid⟩ := processByPid_mem h.list h.address (not_or.mp hblock).1
    exact hw.wait ⟨_, hmem, (h.pid _ hmem).symm.trans hpid⟩
  · exact killOps_served h hw _ _
  · exact hw.resume
  · exact hw

/-- One step keeps every waiting process served. -/
theorem systemOps_served (h : Settled k w) (hw : w.Served) (hc : WaitersReleased k o)
    (hstep : systemStep work k o = some k') : (w.run (systemOps k o)).Served := by
  cases o with
  | tick r switch => exact hw
  | call r =>
    rw [systemStep] at hstep
    split_ifs at hstep with hidle
    exact callOps_served (h.unload r).table hw ((h.calling hidle).unload r).current hc.1
  | fault r =>
    rw [systemStep] at hstep
    split_ifs at hstep with hidle
    have hpid := h.table.pid _ (h.current.resolve_left hidle)
    have hunwaited := hc.2
    rw [FaultUnwaited, h.table.nodes_eq] at hunwaited
    rw [systemOps, hpid]
    split_ifs with hpage
    · exact hw.remove.wake
    · refine hw.remove_of_no_waiter h.table.list.nodup fun q hq hne hwaits => ?_
      rw [← hpid] at hwaits
      exact hunwaited hpage q hq hne ((h.table.waits_iff hq _).mpr hwaits)

theorem callOps_released (h : Shows k w) {p : ℕ} (hp : .remove p ∈ callOps k r) :
    (w.run (callOps k r)).NoneWaits (k.procs p).pid := by
  rw [callOps] at hp ⊢
  split_ifs at hp ⊢ with h57 h60 h61 hblock h62 hsleeps
  · cases hfork : processFork k k.currentProcess with
    | none => simp [hfork] at hp
    | some c =>
      rw [hfork, Option.elim_some] at hp
      split_ifs at hp <;> simp at hp
  · obtain rfl : p = k.currentProcess := by simpa using hp
    exact WaitTable.noneWaits_wake _ _
  · simp at hp
  · simp at hp
  · rw [killOps] at hp ⊢
    split_ifs at hp ⊢ with hno hkill
    · simp at hp
    · obtain rfl : p = processByPid k (killedPid k r.ebx) := by simpa using hp
      have hne : processByPid k (killedPid k r.ebx) ≠ 0 := fun h0 => hno (.inl h0)
      rw [(processByPid_mem h.list h.address hne).2]
      exact (WaitTable.noneWaits_wake _ _).remove
    · simp at hp
  · simp at hp
  · simp at hp

/-- Nobody is suspended for a process that a step has destroyed. -/
theorem systemOps_released (h : Settled k w) (hc : FaultUnwaited k o) {p : ℕ}
    (hp : .remove p ∈ systemOps k o) : (w.run (systemOps k o)).NoneWaits (k.procs p).pid := by
  cases o with
  | tick r switch => simp [systemOps] at hp
  | call r =>
    rw [← (processUnload_same k r).field_eq Process.pid (fun _ _ _ _ => rfl) p]
    exact callOps_released (h.unload r).table hp
  | fault r =>
    rw [FaultUnwaited, h.table.nodes_eq] at hc
    rw [systemOps] at hp ⊢
    split_ifs at hp ⊢ with hpage
    · obtain rfl : p = k.currentProcess := by simpa using hp
      exact WaitTable.noneWaits_wake _ _
    · obtain rfl : p = k.currentProcess := by simpa using hp
      intro q hq hwaits
      have hmem := h.table.list.nodup.mem_erase_iff.mp hq
      exact hc hpage q hmem.2 hmem.1 ((h.table.waits_iff hmem.2 _).mpr hwaits)

/-- Over a run whose allocations are sound and in which no exception other than a page fault
hits a process that another one waits for: whoever is suspended for a pid waits for a process
that is there, and every step that destroys a process releases those who waited for it. -/
theorem waiters_served {os : List SystemOp} (hk : Settled k w) (h0 : WaitersServed k)
    (hrun : Run (systemStep work) WaitersReleased k os k') :
    WaitersServed k' ∧ ∀ o k'' p, WaitersReleased k' o → systemStep work k' o = some k'' →
      .remove p ∈ systemOps k' o → (waitTable k'').NoneWaits (k'.procs p).pid := by
  have hinv : ∃ w, Settled k' w ∧ w.Served := by
    refine hrun.invariant (I := fun k => ∃ w, Settled k w ∧ w.Served) ?_
      ⟨_, hk, hk.table.served_iff.mp h0⟩
    rintro s o t ⟨w, hs, hw⟩ hc hstep
    exact ⟨_, hs.step hc.1 hstep, systemOps_served hs hw hc hstep⟩
  obtain ⟨w, hw, hserved⟩ := hinv
  refine ⟨hw.table.served_iff.mpr hserved, fun o k'' p hc hstep hp => ?_⟩
  have hnext := (hw.step hc.1 hstep).table
  intro q hq
  have hq' : q ∈ (w.run (systemOps k' o)).queue := hnext.nodes_eq ▸ hq
  rw [hnext.waits_iff hq']
  exact systemOps_released hw hc.2 hp q hq'

end Served

/-! ### Nobody is woken before -/

/-- What happens to the waiting processes in a step. -/
def waitEvents (k : Kernel) (o : SystemOp) : List WaitEvent := (waitTable k).trace (systemOps k o)

/-- Nobody waits for the process that a signal is sent to. -/
def KillUnwaited (k : Kernel) : SystemOp → Prop
  | .tick _ _ => True
  | .call r => r.eax = 62 → processByPid (processUnload k r) (killedPid (processUnload k r) r.ebx) ≠ 0 →
    r.ecx < nsig → r.ecx ≠ 0 → (waitTable k).NoneWaits (killedPid (processUnload k r) r.ebx)
  | .fault _ => True

section Woken
variable {work : ℕ → FileWork} {k k' : Kernel} {r : Registers} {o : SystemOp} {log : List WaitEvent}

/-- A removal and a wake-up for the process removed. -/
theorem WokenBehind.keep {es : List WaitEvent} (h : WokenBehind log) (hes : es = []) :
    WokenBehind (log ++ es) := by
  rwa [hes, List.append_nil]

theorem WokenBehind.remove_wake (h : WokenBehind log) (w : WaitTable) (p : ℕ) :
    WokenBehind (log ++ w.trace [.remove p, .wake (w.pid p)]) := by
  simp only [WaitTable.trace, WaitTable.emit, List.append_nil]
  exact h.destroy_wake (w.pid p) _

theorem WokenBehind.kill {w : WaitTable} {pid sig : ℕ} (h : WokenBehind log)
    (hno : processByPid k (killedPid k pid) ≠ 0 → sig < nsig → sig ≠ 0 →
      w.NoneWaits (killedPid k pid)) : WokenBehind (log ++ w.trace (killOps k pid sig)) := by
  rw [killOps]
  split_ifs with hbad hkill
  · exact h.keep rfl
  · obtain ⟨h0, h1, h2⟩ : _ ∧ _ ∧ _ := by simpa only [not_or] using hbad
    refine h.append fun q n hm => ?_
    rw [WaitTable.trace, (hno h0 (not_le.mp h1) h2).emit_wake] at hm
    simp [WaitTable.trace, WaitTable.emit] at hm
  · obtain ⟨h0, h1, h2⟩ : _ ∧ _ ∧ _ := by simpa only [not_or] using hbad
    refine h.append fun q n hm => ?_
    rw [WaitTable.trace, (hno h0 (not_le.mp h1) h2).emit_wake] at hm
    cases hm

theorem WokenBehind.step (h : WokenBehind log) (hc : KillUnwaited k o) :
    WokenBehind (log ++ waitEvents k o) := by
  cases o with
  | tick r switch => exact h.keep rfl
  | call r =>
    have hpid : ∀ q, ((processUnload k r).procs q).pid = (waitTable k).pid q := fun q =>
      (processUnload_same k r).field_eq Process.pid (fun _ _ _ _ => rfl) q
    rw [waitEvents, systemOps, callOps]
    split_ifs with h57 h60 h61 hblock h62 hsleeps
    · cases processFork (processUnload k r) (processUnload k r).currentProcess with
      | none => exact h.keep rfl
      | some c =>
        rw [Option.elim_some]
        split_ifs
        · exact h.keep rfl
        · exact h.keep rfl
    · rw [hpid]
      exact h.remove_wake _ _
    · exact h.keep rfl
    · refine h.append fun q n hm => ?_
      simp [WaitTable.trace, WaitTable.emit] at hm
    · exact h.kill (hc h62)
    · exact h.keep rfl
    · exact h.keep rfl
  | fault r =>
    rw [waitEvents, systemOps]
    split_ifs with hpage
    · exact h.remove_wake (waitTable k) k.currentProcess
    · refine h.append fun q n hm => ?_
      simp [WaitTable.trace, WaitTable.emit] at hm

/-- Over a run in which no signal is sent to a process that another one waits for: whoever is
woken by `process_notify_waitpid` is woken behind the destruction of the process it waited
for. -/
theorem woken_behind_destruction {os : List SystemOp}
    (hrun : Run (logged (systemStep work) waitEvents) (fun s o => KillUnwaited s.1 o)
      (k, []) os (k', log)) : WokenBehind log := by
  refine hrun.invariant (I := fun s => WokenBehind s.2) ?_ fun before _ _ _ he => ?_
  · rintro s o t hs hc hstep
    obtain ⟨k₁, -, rfl⟩ := Option.map_eq_some_iff.mp hstep
    exact WokenBehind.step hs hc
  · cases before <;> cases he

end Woken

/-! ### Two runs -/

/-- Process 1 at 16 has called `waitpid(2)`. -/
def parentWaits : Kernel :=
  (syscallHandler (fun _ => getpidWork) callingProcess (callWith 61 2 0)).elim callingProcess Prod.fst

/-- Process 2 at 32 was switched to. -/
def childRuns : Kernel := (interrupt parentWaits .zero true).1

def childRunsTable : WaitTable := callingTable.apply (.wait 16 2)

theorem parentWaits_step : systemStep (fun _ => getpidWork) callingProcess
    (.call (callWith 61 2 0)) = some parentWaits := rfl

theorem childRuns_step : systemStep (fun _ => getpidWork) parentWaits (.tick .zero true) =
    some childRuns := rfl

theorem childRuns_settled : Settled childRuns childRunsTable := by
  have hops : systemOps callingProcess (.call (callWith 61 2 0)) = [.wait 16 2] := by decide
  have hcall := callingProcess_settled.step (callWith_fresh 61 (by decide) 2 0 _)
    parentWaits_step
  rw [hops] at hcall
  have htick : ForksFresh parentWaits (.tick .zero true) := trivial
  exact hcall.step htick childRuns_step

theorem childRuns_current : childRuns.currentProcess = 32 ∧ childRuns.kernelIdleProcess = 8 := by
  decide

theorem childRuns_busy : childRuns.currentProcess ≠ childRuns.kernelIdleProcess := by
  rw [childRuns_current.1, childRuns_current.2]
  decide

/-- Process 2 takes an exception. -/
theorem childRuns_fault (r : Registers) :
    systemStep (fun _ => getpidWork) childRuns (.fault r) = some (fault childRuns r).1 ∧
    Shows (fault childRuns r).1
      (childRunsTable.run (if r.intNo = 14 then [.remove 32, .wake 2] else [.remove 32])) := by
  have hpid : (childRuns.procs 32).pid = 2 := childRuns_settled.table.pid 32 (by decide)
  have hend := (childRuns_settled.fault childRuns_busy r).table
  rw [systemOps, childRuns_current.1, hpid] at hend
  refine ⟨?_, hend⟩
  rw [systemStep, if_neg childRuns_busy]

theorem callingProcess_served : WaitersServed callingProcess := by
  rw [callingProcess_settled.table.served_iff]
  intro q _ hs
  simp [callingTable] at hs

/-- Process 1 waits for process 2, which then takes a page fault. -/
theorem waiters_served_of_page_fault : ∃ s,
    Run (systemStep fun _ => getpidWork) WaitersReleased callingProcess
      [.call (callWith 61 2 0), .tick .zero true, .fault (faultFrame 14)] s ∧
    s.nodes s.readyQueue = [16] ∧ WaitersServed s := by
  obtain ⟨hstep, hend⟩ := childRuns_fault (faultFrame 14)
  have hrun : Run (systemStep fun _ => getpidWork) WaitersReleased callingProcess
      [.call (callWith 61 2 0), .tick .zero true, .fault (faultFrame 14)]
      (fault childRuns (faultFrame 14)).1 :=
    .cons ⟨callWith_fresh 61 (by decide) 2 0 _, trivial⟩ parentWaits_step
      (.cons ⟨trivial, trivial⟩ childRuns_step
        (.single ⟨trivial, fun h => absurd rfl h⟩ hstep))
  exact ⟨_, hrun, hend.nodes_eq,
    (waiters_served callingProcess_settled callingProcess_served hrun).1⟩

/-- Process 2 divides by zero instead: process 1 waits for a process that is gone. -/
theorem waiter_orphaned_of_exception : ∃ w s, Settled callingProcess w ∧
    WaitersServed callingProcess ∧
    Run (systemStep fun _ => getpidWork) ForksFresh callingProcess
      [.call (callWith 61 2 0), .tick .zero true, .fault (faultFrame 0)] s ∧
    s.nodes s.readyQueue = [16] ∧ (s.procs 16).suspended = true ∧ (s.procs 16).waitpid = 2 ∧
    ¬ WaitersServed s := by
  obtain ⟨hstep, hend⟩ := childRuns_fault (faultFrame 0)
  have hrun : Run (systemStep fun _ => getpidWork) ForksFresh callingProcess
      [.call (callWith 61 2 0), .tick .zero true, .fault (faultFrame 0)]
      (fault childRuns (faultFrame 0)).1 :=
    .cons (callWith_fresh 61 (by decide) 2 0 _) parentWaits_step
      (.cons trivial childRuns_step (.single trivial hstep))
  refine ⟨_, _, callingProcess_settled, callingProcess_served, hrun, hend.nodes_eq,
    hend.suspended 16 (by decide), hend.waitpid 16 (by decide), fun hserved => ?_⟩
  obtain ⟨t, ht, hpid⟩ := hend.served_iff.mp hserved 16 (by decide) (by decide) (by decide)
  obtain rfl : t = 16 := List.mem_singleton.mp ht
  exact absurd hpid (by decide)

/-- Up to the system call of process 2, with the log. -/
theorem childRuns_logged {C : Kernel × List WaitEvent → SystemOp → Prop}
    (hcall : ∀ log, C (callingProcess, log) (.call (callWith 61 2 0)))
    (htick : ∀ log, C (parentWaits, log) (.tick .zero true)) :
    Run (logged (systemStep fun _ => getpidWork) waitEvents) C (callingProcess, [])
      [.call (callWith 61 2 0), .tick .zero true] (childRuns, [.waits 16 2]) := by
  have hevents : waitEvents callingProcess (.call (callWith 61 2 0)) = [.waits 16 2] := by
    decide
  have hwaits : logged (systemStep fun _ => getpidWork) waitEvents (callingProcess, [])
      (.call (callWith 61 2 0)) = some (parentWaits, [.waits 16 2]) := by
    rw [logged, parentWaits_step, hevents]
    rfl
  refine .cons (hcall _) hwaits (.single (htick _) ?_)
  rw [logged, childRuns_step]
  rfl

theorem woken_behind_destruction_of_exit : ∃ s,
    Run (logged (systemStep fun _ => getpidWork) waitEvents) (fun s o => KillUnwaited s.1 o)
      (callingProcess, []) [.call (callWith 61 2 0), .tick .zero true, .call (callWith 60 7 0)]
      (s, [.waits 16 2, .destroyed 2, .woken 16 2]) ∧
    WokenBehind [.waits 16 2, .destroyed 2, .woken 16 2] := by
  have hevents : waitEvents childRuns (.call (callWith 60 7 0)) = [.destroyed 2, .woken 16 2] := by
    decide
  obtain ⟨s, hs⟩ : ∃ s, systemStep (fun _ => getpidWork) childRuns (.call (callWith 60 7 0)) =
    some s := ⟨_, systemStep_call childRuns_busy rfl⟩
  have hstep : logged (systemStep fun _ => getpidWork) waitEvents (childRuns, [.waits 16 2])
      (.call (callWith 60 7 0)) = some (s, [.waits 16 2, .destroyed 2, .woken 16 2]) := by
    rw [logged, hs, hevents]
    rfl
  have hc : KillUnwaited childRuns (.call (callWith 60 7 0)) := fun h => absurd h (by decide)
  have hrun := (childRuns_logged (C := fun s o => KillUnwaited s.1 o)
    (fun _ h => absurd h (by decide)) fun _ => trivial).trans (.single hc hstep)
  exact ⟨s, hrun, woken_behind_destruction hrun⟩

/-- Process 2 gets the signal 10 instead: process 1 is woken although process 2 is there. -/
theorem woken_before_of_signal : ∃ s,
    Run (logged (systemStep fun _ => getpidWork) waitEvents) Anything
      (callingProcess, []) [.call (callWith 61 2 0), .tick .zero true, .call (callWith 62 2 10)]
      (s, [.waits 16 2, .woken 16 2]) ∧ s.nodes s.readyQueue = [16, 32] ∧
    ¬ WokenBehind [.waits 16 2, .woken 16 2] := by
  have hevents : waitEvents childRuns (.call (callWith 62 2 10)) = [.woken 16 2] := by
    decide
  have hsome : (runSyscall (fun _ => getpidWork) (processUnload childRuns (callWith 62 2 10))
      (callWith 62 2 10)).isSome = true := by decide
  obtain ⟨c, hc⟩ := Option.isSome_iff_exists.mp hsome
  have hs := systemStep_call childRuns_busy hc
  have hend := (childRuns_settled.step (callWith_fresh 62 (by decide) 2 10 _) hs).table
  have hops : systemOps childRuns (.call (callWith 62 2 10)) = [.wake 2] := by decide
  generalize (processReload c.1 c.2.1).1 = s at hs hend
  have hstep : logged (systemStep fun _ => getpidWork) waitEvents (childRuns, [.waits 16 2])
      (.call (callWith 62 2 10)) = some (s, [.waits 16 2, .woken 16 2]) := by
    rw [logged, hs, hevents]
    rfl
  rw [hops] at hend
  refine ⟨s, (childRuns_logged (fun _ => trivial) fun _ => trivial).trans (.single trivial hstep),
    hend.nodes_eq, fun h => ?_⟩
  obtain ⟨xs, ys, he, -⟩ := h [.waits 16 2] 16 2 [] rfl
  have hmem : WaitEvent.destroyed 2 ∈ [WaitEvent.waits 16 2] := by
    rw [he]
    simp
  exact absurd hmem (by decide)

end DosKernel
