import Mathlib.Data.List.TakeWhile
import DosKernel.Paging.Isolation
import DosKernel.Process.Wait

/-! Every interleaving of a child's exit and its parent's wait. When the parent waits
first it is woken by the exit; when the child exits first nothing is left of it. -/

namespace DosKernel

open Lib

/-- The two processes and the arguments of their calls. -/
structure Calls where
  parent : ℕ
  child : ℕ
  pid : ℕ
  status : ℕ
  code : ℕ

/-- The kernel, which of the two calls were made, and what the parent's call has
returned to the parent. -/
structure WaitState where
  kernel : Kernel
  waited : Bool
  exited : Bool
  yielded : Option ℕ

/-- Timer interrupts and the two system calls, each with the frame of the process it
interrupts. -/
inductive WaitOp
  | tick (r : Registers) (switch : Bool)
  | wait (r : Registers)
  | exit (r : Registers)

namespace WaitState

/-- A timer interrupt. If it resumes the parent for the first time since the wait, that
is where the call returns. -/
def tick (c : Calls) (s : WaitState) (r : Registers) (switch : Bool) : WaitState :=
  let kr := interrupt s.kernel r switch
  { s with
    kernel := kr.1
    yielded := if s.waited ∧ s.yielded = none ∧ kr.1.currentProcess = c.parent then some kr.2.eax
      else s.yielded }

@[simp] theorem tick_kernel (c : Calls) (s : WaitState) (r : Registers) (switch : Bool) :
    (s.tick c r switch).kernel = (interrupt s.kernel r switch).1 := rfl

@[simp] theorem tick_waited (c : Calls) (s : WaitState) (r : Registers) (switch : Bool) :
    (s.tick c r switch).waited = s.waited := rfl

end WaitState

/-- Each call is made once, by the process it belongs to while that is running. -/
def waitStep (c : Calls) (s : WaitState) : WaitOp → Option WaitState
  | .tick r switch => some (s.tick c r switch)
  | .wait r =>
    if s.kernel.currentProcess = c.parent ∧ s.waited = false then
      let kr := systemCall (syscallWaitpid c.pid c.status) s.kernel r
      some { s with
        kernel := kr.1
        waited := true
        yielded := if kr.1.currentProcess = c.parent then some kr.2.eax else none }
    else none
  | .exit r =>
    if s.kernel.currentProcess = c.child ∧ s.exited = false then
      some { s with kernel := (systemCall (syscallExit c.code) s.kernel r).1, exited := true }
    else none

/-- Whether the first of the two calls is the parent's wait. -/
def firstIsWait : List WaitOp → Option Bool
  | [] => none
  | .tick _ _ :: os => firstIsWait os
  | .wait _ :: _ => some true
  | .exit _ :: _ => some false

/-- Timer interrupts that switch, with the given frames. -/
def WaitState.ticks (c : Calls) : (n : ℕ) → (frames : ℕ → Registers) → WaitState → WaitState
  | 0, _, s => s
  | n + 1, frames, s => ticks c n (fun i => frames (i + 1)) (s.tick c (frames 0) true)

/-- Whatever the interrupted processes are doing, the parent's call returns the pid of
the child or 0 after some time, with the exit status stored where it was asked for. -/
def Answered (c : Calls) (s : WaitState) : Prop :=
  ∀ frames, ∃ n v, (s.ticks c n frames).yielded = some v ∧ (v = c.pid ∨ v = 0) ∧
    mmuReadl (s.ticks c n frames).kernel.mmu.mem
      ((s.ticks c n frames).kernel.procs c.parent).pdt c.status = c.code

/-! ### The phases of a run -/

/-- The parent and the child are in the queue, the pid belongs to the child alone and
the place for the exit status is the parent's. -/
structure Pair (c : Calls) (k : Kernel) (xs : List ℕ) : Prop where
  queued : Queued k xs
  parent_mem : c.parent ∈ xs
  child_mem : c.child ∈ xs
  child_ne : c.child ≠ c.parent
  idle : k.kernelIdleProcess ∉ xs
  idle_signal : (k.procs k.kernelIdleProcess).signal = 0
  pid_eq : (k.procs c.child).pid = c.pid
  pid_pos : 0 < c.pid
  pid_lt : c.pid < 2 ^ 31
  pid_inj : ∀ q ∈ xs, (k.procs q).pid = c.pid → q = c.child
  code_lt : c.code < 4294967296
  apart : StatusApart k.mmu (k.procs c.parent).pdt (k.procs c.child).pdt c.status

/-- Before both calls: nobody waits for the child. -/
structure Family (c : Calls) (k : Kernel) (xs : List ℕ) : Prop extends Pair c k xs where
  alive : (k.procs c.child).state ≠ .zombie
  waiting : ∀ q ∈ xs, (k.procs q).waitpid ≠ c.pid

/-- The parent waits and the child has not exited. -/
structure Waiting (c : Calls) (k : Kernel) (xs : List ℕ) : Prop extends Pair c k xs where
  waits : (k.procs c.parent).waitpid = c.pid
  status : (k.procs c.parent).waitpidStatus = c.status
  suspended : (k.procs c.parent).suspended = true
  ready : (k.procs c.parent).state = .ready
  current_ne : k.currentProcess ≠ c.parent
  others : ∀ q ∈ xs, q ≠ c.parent → (k.procs q).waitpid ≠ c.pid

/-- The child has exited after the parent waited: the parent is awake with the pid in
its frame, or has been resumed with it. -/
structure Notified (c : Calls) (s : WaitState) (xs : List ℕ) : Prop where
  queued : Queued s.kernel xs
  parent_mem : c.parent ∈ xs
  idle : s.kernel.kernelIdleProcess ∉ xs
  stored : mmuReadl s.kernel.mmu.mem (s.kernel.procs c.parent).pdt c.status = c.code
  answer : s.yielded = some c.pid ∨ s.yielded = none ∧ s.kernel.currentProcess ≠ c.parent ∧
    (s.kernel.procs c.parent).r.eax = c.pid ∧ (s.kernel.procs c.parent).state = .ready ∧
    (s.kernel.procs c.parent).suspended = false

/-- The child has exited before the parent waited. -/
structure Gone (c : Calls) (k : Kernel) (xs : List ℕ) : Prop where
  queued : Queued k xs
  pid_ne : ∀ q ∈ xs, (k.procs q).pid ≠ c.pid

section Ticks
variable {c : Calls} {k : Kernel} {s : WaitState} {xs : List ℕ} (r : Registers) (switch : Bool)

theorem Pair.tick (h : Pair c k xs) : Pair c (interrupt k r switch).1 xs := by
  have hsw := (interrupt_spec (r := r) h.queued switch).1
  have hpid := hsw.table.field_eq Process.pid fun _ _ _ _ => rfl
  have hpdt := hsw.table.field_eq Process.pdt fun _ _ _ _ => rfl
  refine ⟨h.queued.interrupt r switch, h.parent_mem, h.child_mem, h.child_ne, ?_, ?_, ?_, h.pid_pos,
    h.pid_lt, ?_, h.code_lt, ?_⟩
  · rw [hsw.table.idle]
    exact h.idle
  · rw [hsw.table.idle, hsw.table.signal_eq]
    exact h.idle_signal
  · rw [hpid, h.pid_eq]
  · intro q hq
    rw [hpid]
    exact h.pid_inj q hq
  · rw [hpdt, hpdt]
    exact h.apart.congr hsw.table.mem hsw.table.bitmap

theorem Family.tick (h : Family c k xs) : Family c (interrupt k r switch).1 xs := by
  have hsw := (interrupt_spec (r := r) h.queued switch).1
  refine ⟨h.toPair.tick r switch, ?_, fun q hq => ?_⟩
  · rw [hsw.state_eq]
    split_ifs
    · simp
    · simp
    · exact h.alive
  · rw [hsw.table.field_eq Process.waitpid fun _ _ _ _ => rfl]
    exact h.waiting q hq

theorem Waiting.resumed_ne (h : Waiting c k xs) : resumedProcess k r switch ≠ c.parent := by
  intro he
  rcases resumedProcess_cases (r := r) h.queued switch with hcur | hmem
  · exact h.current_ne (hcur ▸ he)
  · rw [he, h.suspended] at hmem
    exact absurd hmem.2 (by simp)

theorem Waiting.tick (h : Waiting c k xs) : Waiting c (interrupt k r switch).1 xs := by
  have hsw := (interrupt_spec (r := r) h.queued switch).1
  have hne := h.resumed_ne r switch
  have hwaitpid := hsw.table.field_eq Process.waitpid fun _ _ _ _ => rfl
  refine ⟨h.toPair.tick r switch, ?_, ?_, ?_, ?_, ?_, fun q hq hqp => ?_⟩
  · rw [hwaitpid, h.waits]
  · rw [hsw.table.field_eq Process.waitpidStatus fun _ _ _ _ => rfl, h.status]
  · rw [hsw.table.field_eq Process.suspended fun _ _ _ _ => rfl, h.suspended]
  · rw [hsw.state_eq, if_neg hne.symm, if_neg h.current_ne.symm, h.ready]
  · rw [hsw.current_eq]
    exact hne
  · rw [hwaitpid]
    exact h.others q hq hqp

theorem Notified.tick (h : Notified c s xs) (hw : s.waited = true) :
    Notified c (s.tick c r switch) xs := by
  obtain ⟨hsw, hret⟩ := interrupt_spec (r := r) h.queued switch
  refine ⟨h.queued.interrupt r switch, h.parent_mem, ?_, ?_, ?_⟩
  · rw [WaitState.tick, hsw.table.idle]
    exact h.idle
  · rw [WaitState.tick, hsw.table.mem, hsw.table.field_eq Process.pdt fun _ _ _ _ => rfl, h.stored]
  · rcases h.answer with hy | ⟨hy, hne, heax, hready, hsus⟩
    · left
      rw [WaitState.tick, hy, if_neg (by simp)]
    · by_cases hp : resumedProcess s.kernel r switch = c.parent
      · left
        rw [WaitState.tick, hsw.current_eq, hret, hp, Function.update_of_ne hne.symm, heax, if_pos ⟨hw, hy, rfl⟩]
      · right
        rw [WaitState.tick, hsw.current_eq]
        refine ⟨?_, hp, ?_, ?_, ?_⟩
        · rw [if_neg fun h => hp h.2.2, hy]
        · rw [hsw.frame_eq, Function.update_of_ne hne.symm, heax]
        · rw [hsw.state_eq, if_neg fun h => hp h.symm, if_neg hne.symm, hready]
        · rw [hsw.table.field_eq Process.suspended fun _ _ _ _ => rfl, hsus]

theorem Gone.tick (h : Gone c k xs) : Gone c (interrupt k r switch).1 xs := by
  have hsw := (interrupt_spec (r := r) h.queued switch).1
  refine ⟨h.queued.interrupt r switch, fun q hq => ?_⟩
  rw [hsw.table.field_eq Process.pid fun _ _ _ _ => rfl]
  exact h.pid_ne q hq

end Ticks

section TheCalls
variable {c : Calls} {k : Kernel} {xs : List ℕ} (r : Registers)

theorem Family.wait (h : Family c k xs) (hcur : k.currentProcess = c.parent) :
    Waiting c (systemCall (syscallWaitpid c.pid c.status) k r).1 xs := by
  have hcall := systemCall_wait r c.status h.queued h.idle h.idle_signal
    (hcur ▸ h.parent_mem) h.child_mem (hcur ▸ h.child_ne)
    (fun q hq hpq => h.pid_inj q hq (hpq.trans h.pid_eq)) h.alive
  rw [h.pid_eq] at hcall
  generalize (systemCall (syscallWaitpid c.pid c.status) k r).1 = k' at hcall
  obtain ⟨hqueued, hcurrent, hidle, hmem, hbitmap, ⟨fr, n, hself⟩, hother⟩ := hcall
  rw [hcur] at hself hother
  have hchild : ∃ st fr n, k'.procs c.child =
      { k.procs c.child with state := st, r := fr, preemptions := n } := hother _ h.child_ne
  obtain ⟨st', fr', n', hchild⟩ := hchild
  have hparent_idle : c.parent ≠ k.kernelIdleProcess := fun he => h.idle (he ▸ h.parent_mem)
  refine ⟨⟨hqueued, h.parent_mem, h.child_mem, h.child_ne, ?_, ?_, ?_, h.pid_pos, h.pid_lt, ?_,
    h.code_lt, ?_⟩, ?_, ?_, ?_, ?_, ?_, ?_⟩
  · rw [hidle]
    exact h.idle
  · obtain ⟨st, fr, n, e⟩ := hother k.kernelIdleProcess hparent_idle.symm
    rw [hidle, e]
    exact h.idle_signal
  · rw [hchild]
    exact h.pid_eq
  · intro q hq hpq
    refine h.pid_inj q hq ?_
    by_cases hqp : q = c.parent
    · rw [hqp, hself] at hpq
      rw [hqp]
      exact hpq
    · obtain ⟨st, fr, n, e⟩ := hother q hqp
      rw [e] at hpq
      exact hpq
  · rw [hself, hchild]
    exact h.apart.congr hmem hbitmap
  · rw [hself]
    rfl
  · rw [hself]
    rfl
  · rw [hself]
    rfl
  · rw [hself]
    rfl
  · rw [hcurrent]
    exact hparent_idle.symm
  · intro q hq hqp
    obtain ⟨st, fr, n, e⟩ := hother q hqp
    rw [e]
    exact h.waiting q hq

/-- Nothing is left of a child that has exited: the call fails. -/
theorem Gone.wait (h : Gone c k xs) :
    (systemCall (syscallWaitpid c.pid c.status) k r).1.currentProcess = k.currentProcess ∧
      (systemCall (syscallWaitpid c.pid c.status) k r).2.eax = word32 - esrch := by
  have hu := h.queued.unload r
  obtain ⟨htable, hcurrent, -, -⟩ := processUnload_spec (r := r) h.queued.roundRobin
  have htarget : processByPid (processUnload k r) c.pid = 0 :=
    processByPid_eq_zero hu fun q hq => by
      rw [htable.field_eq Process.pid fun _ _ _ _ => rfl]
      exact h.pid_ne q hq
  rw [systemCall, syscallWaitpid, htarget, if_pos rfl]
  exact ⟨(processReload_spec (r := r) hu.roundRobin).1.current_eq.trans hcurrent, rfl⟩

theorem Family.exit (h : Family c k xs) (hcur : k.currentProcess = c.child) :
    ∃ ys, Gone c (systemCall (syscallExit c.code) k r).1 ys := by
  obtain ⟨ys, zs, rfl⟩ := List.append_of_mem h.child_mem
  have hnodup := h.queued.list.nodup
  obtain ⟨w, hw, heq⟩ := systemCall_exit k ys zs c.code r
    (hcur ▸ h.queued) (hcur ▸ h.idle) h.idle_signal
  have hstay : ∀ q ∈ ys ++ zs, (w.procs q).waitpid ≠ c.pid ∧ (w.procs q).pid ≠ c.pid := by
    intro q hq
    obtain ⟨hq, hqc⟩ := mem_of_mem_rest hnodup hq
    obtain ⟨n, par, pre, e⟩ := hw.other q (hcur ▸ hqc)
    rw [e]
    exact ⟨h.waiting q hq, fun hpid => hqc (h.pid_inj q hq hpid)⟩
  rw [hcur, h.pid_eq, notify_foldl_eq_self fun q hq => (hstay q hq).1] at heq
  rw [heq]
  exact ⟨ys ++ zs, hw.parked.queued (hw.current.trans hw.idle.symm), fun q hq => (hstay q hq).2⟩

theorem Waiting.exit (h : Waiting c k xs) (hcur : k.currentProcess = c.child) :
    ∃ ys, Notified c ⟨(systemCall (syscallExit c.code) k r).1, true, true, none⟩ ys := by
  obtain ⟨ys, zs, rfl⟩ := List.append_of_mem h.child_mem
  have hnodup := h.queued.list.nodup
  obtain ⟨w, hw, heq⟩ := systemCall_exit k ys zs c.code r
    (hcur ▸ h.queued) (hcur ▸ h.idle) h.idle_signal
  have hparent : c.parent ∈ ys ++ zs := by
    simpa [h.child_ne.symm] using h.parent_mem
  have hparent_idle : c.parent ≠ k.kernelIdleProcess := fun he => h.idle (he ▸ h.parent_mem)
  obtain ⟨n, par, pre, hself⟩ := hw.other c.parent (hcur ▸ h.child_ne.symm)
  rw [if_neg hparent_idle] at hself
  have hothers : ∀ q ∈ ys ++ zs, q ≠ c.parent → (w.procs q).waitpid ≠ c.pid := by
    intro q hq hqp
    obtain ⟨hq, hqc⟩ := mem_of_mem_rest hnodup hq
    obtain ⟨n, par, pre, e⟩ := hw.other q (hcur ▸ hqc)
    rw [e]
    exact h.others q hq hqp
  have hwake : (ys ++ zs).foldl (notifyNode c.pid c.code) w =
      (w.setProc c.parent (·.wake c.pid)).writel (k.procs c.parent).pdt c.status c.code := by
    have hwnodup := hw.parked.list.nodup
    obtain ⟨as, bs, hsplit⟩ := List.append_of_mem hparent
    rw [hsplit] at hwnodup hothers
    rw [hsplit, notify_foldl_eq hwnodup hothers, notifyNode, hself]
    dsimp only
    rw [if_pos h.waits, h.status, if_pos h.apart.status_pos]
  rw [hcur, h.pid_eq, hwake] at heq
  rw [heq]
  refine ⟨ys ++ zs, ⟨?_, hparent, ?_, ?_, .inr ⟨rfl, ?_, ?_, ?_, ?_⟩⟩⟩
  · refine Parked.queued ?_ (hw.current.trans hw.idle.symm)
    exact (hw.parked.setProc _ (·.wake c.pid) fun _ => ⟨rfl, rfl, rfl⟩).writel _ _ _
  · rw [Kernel.writel, Kernel.setProc, hw.idle]
    exact fun hm => h.idle (mem_of_mem_rest hnodup hm).1
  · obtain ⟨s, hmem, hbitmap, hrelease⟩ := hw.mem
    rw [hcur] at hrelease
    dsimp only
    rw [Kernel.writel_procs, Kernel.setProc_self, hself]
    dsimp only [Process.wake, Kernel.writel, Kernel.setProc]
    rw [hrelease]
    exact (h.apart.congr hmem hbitmap).stored h.code_lt
  · rw [Kernel.writel, Kernel.setProc, hw.current]
    exact hparent_idle.symm
  · rw [Kernel.writel_procs, Kernel.setProc_self]
    rfl
  · rw [Kernel.writel_procs, Kernel.setProc_self, hself]
    exact h.ready
  · rw [Kernel.writel_procs, Kernel.setProc_self]
    rfl

end TheCalls

/-! ### The parent is resumed -/

theorem length_lt_append_cons {α : Type*} (as bs : List α) (t : α) :
    bs.length < (as ++ t :: bs).length := by
  rw [List.length_append, List.length_cons]
  omega

/-- A search meets the first hit at `p` or before it. -/
theorem find?_upto {α : Type*} {f : α → Bool} {p : α} (hp : f p = true) (ys zs : List α) :
    ∃ t, (ys ++ p :: zs).find? f = some t ∧ (t = p ∨ ∃ as bs, ys = as ++ t :: bs) := by
  induction ys with
  | nil => exact ⟨p, List.find?_cons_of_pos hp, .inl rfl⟩
  | cons y ys ih =>
    by_cases hy : f y = true
    · exact ⟨y, List.find?_cons_of_pos hy, .inr ⟨[], ys, rfl⟩⟩
    · obtain ⟨t, ht, hpos⟩ := ih
      refine ⟨t, by rw [List.cons_append, List.find?_cons_of_neg hy, ht], hpos.imp_right ?_⟩
      rintro ⟨as, bs, rfl⟩
      exact ⟨y :: as, bs, rfl⟩

section Progress
variable {c : Calls} {k : Kernel} {s : WaitState} {xs ys zs us ws : List ℕ}

/-- The search from a queued process on: first behind it, then before it. -/
theorem roundRobinNext_eq (h : Queued k (us ++ k.currentProcess :: ws))
    (hidle : k.currentProcess ≠ k.kernelIdleProcess) :
    roundRobinNext k = (ws.find? (canRun k)).or (us.find? (canRun k)) := by
  have h0 : k.currentProcess ≠ 0 := h.list.ne_zero (by simp)
  have hus : ∀ q ∈ us, decide (q ≠ k.currentProcess) = true := by
    intro q hq
    simpa using (mem_of_mem_rest h.list.nodup (List.mem_append_left ws hq)).2
  rw [roundRobinNext, if_pos ⟨h0, hidle⟩, nodes_behind h.list h.address,
    nodes_eq_of_isList h.list h.address, List.takeWhile_append_of_pos hus, List.takeWhile_cons_of_neg (by simp), List.append_nil]

/-- The search from the idle process: the whole queue. -/
theorem roundRobinNext_idle (h : Queued k xs) (hcur : k.currentProcess = k.kernelIdleProcess)
    (hidle : k.kernelIdleProcess ∉ xs) : roundRobinNext k = xs.find? (canRun k) := by
  have hall : ∀ q ∈ xs, decide (q ≠ k.currentProcess) = true := by
    intro q hq
    have hne : q ≠ k.kernelIdleProcess := fun he => hidle (he ▸ hq)
    rw [hcur, decide_eq_true hne]
  have htake : xs.takeWhile (fun q => decide (q ≠ k.currentProcess)) = xs :=
    List.takeWhile_eq_self_iff.mpr hall
  rw [roundRobinNext, if_neg (fun hc => hc.2 hcur), Option.none_or,
    nodes_eq_of_isList h.list h.address, htake]

/-- The queue is `ys`, the parent, `zs`; the current process is before the parent, with
`n` processes between. -/
def Ahead (k : Kernel) (ys : List ℕ) (n : ℕ) : Prop :=
  k.currentProcess = k.kernelIdleProcess ∧ n = ys.length ∨
    ∃ us ws, ys = us ++ k.currentProcess :: ws ∧ n = ws.length

/-- The current process is behind the parent, with `n` processes behind it. -/
def Behind (k : Kernel) (zs : List ℕ) (n : ℕ) : Prop :=
  ∃ us ws, zs = us ++ k.currentProcess :: ws ∧ n = ws.length

/-- What a switching interrupt does while the parent is awake and was not resumed. -/
theorem Notified.switch (h : Notified c s (ys ++ c.parent :: zs)) (hy : s.yielded = none)
    (hw : s.waited = true) (r : Registers) {t : ℕ}
    (ht : roundRobinNext (processUnload s.kernel r) = some t) :
    (s.tick c r true).kernel.currentProcess = t ∧
    (t = c.parent → (s.tick c r true).yielded = some c.pid) ∧
    (t ≠ c.parent → (s.tick c r true).yielded = none) := by
  obtain ⟨hne, heax, -, -⟩ := (h.answer.resolve_left (by simp [hy])).2
  obtain ⟨hsw, hret⟩ := interrupt_spec (r := r) h.queued true
  have hres : resumedProcess s.kernel r true = t := by
    rw [resumedProcess, if_pos rfl, ht, Option.getD_some]
  rw [hres] at hsw hret
  refine ⟨hsw.current_eq, fun htp => ?_, fun htp => ?_⟩
  · rw [WaitState.tick, hsw.current_eq, hret, htp, Function.update_of_ne hne.symm, heax,
      if_pos ⟨hw, hy, rfl⟩]
  · rw [WaitState.tick, hsw.current_eq, if_neg fun h => htp h.2.2, hy]

theorem Notified.canRun_parent (h : Notified c s xs) (hy : s.yielded = none) (r : Registers) :
    canRun (processUnload s.kernel r) c.parent = true := by
  obtain ⟨hne, -, hready, hsus⟩ := (h.answer.resolve_left (by simp [hy])).2
  obtain ⟨htable, -, -, hstate⟩ := processUnload_spec (r := r) h.queued.roundRobin
  rw [canRun, htable.field_eq Process.suspended fun _ _ _ _ => rfl, hsus, hstate, if_neg hne.symm,
    hready]
  rfl

theorem Notified.ahead (h : Notified c s (ys ++ c.parent :: zs)) (hy : s.yielded = none)
    (hw : s.waited = true) (r : Registers) {n : ℕ} (hn : Ahead s.kernel ys n) :
    (s.tick c r true).yielded = some c.pid ∨
      (s.tick c r true).yielded = none ∧ ∃ m < n, Ahead (s.tick c r true).kernel ys m := by
  have hrun := h.canRun_parent hy r
  have hu := h.queued.unload r
  obtain ⟨htable, hcurrent, -, -⟩ := processUnload_spec (r := r) h.queued.roundRobin
  have hsearch : ∃ t, roundRobinNext (processUnload s.kernel r) = some t ∧
      (t = c.parent ∨ ∃ as bs, ys = as ++ t :: bs ∧ bs.length < n) := by
    rcases hn with ⟨hcur, rfl⟩ | ⟨us, ws, rfl, rfl⟩
    · obtain ⟨t, ht, hpos⟩ := find?_upto hrun ys zs
      refine ⟨t, ?_, hpos.imp_right ?_⟩
      · rw [roundRobinNext_idle hu (by rw [hcurrent, htable.idle, hcur]) (by rw [htable.idle]; exact h.idle),
          ht]
      · rintro ⟨as, bs, rfl⟩
        exact ⟨as, bs, rfl, length_lt_append_cons as bs t⟩
    · obtain ⟨t, ht, hpos⟩ := find?_upto hrun ws zs
      rw [List.append_assoc, List.cons_append, ← hcurrent] at hu
      refine ⟨t, ?_, hpos.imp_right ?_⟩
      · rw [roundRobinNext_eq hu, ht, Option.some_or]
        rw [hcurrent, htable.idle]
        exact fun he => h.idle (he ▸ by simp)
      · rintro ⟨as, bs, rfl⟩
        exact ⟨us ++ s.kernel.currentProcess :: as, bs, by simp, length_lt_append_cons as bs t⟩
  obtain ⟨t, ht, hpos⟩ := hsearch
  obtain ⟨hcur, hyes, hno⟩ := h.switch hy hw r ht
  by_cases htp : t = c.parent
  · exact .inl (hyes htp)
  · obtain ⟨as, bs, hys, hlt⟩ := hpos.resolve_left htp
    exact .inr ⟨hno htp, bs.length, hlt, .inr ⟨as, bs, by rw [hcur, hys], rfl⟩⟩

theorem Notified.behind (h : Notified c s (ys ++ c.parent :: zs)) (hy : s.yielded = none)
    (hw : s.waited = true) (r : Registers) {n : ℕ} (hn : Behind s.kernel zs n) :
    (s.tick c r true).yielded = some c.pid ∨ (s.tick c r true).yielded = none ∧
      ((∃ m < n, Behind (s.tick c r true).kernel zs m) ∨
        ∃ m, Ahead (s.tick c r true).kernel ys m) := by
  have hrun := h.canRun_parent hy r
  have hu := h.queued.unload r
  obtain ⟨htable, hcurrent, -, -⟩ := processUnload_spec (r := r) h.queued.roundRobin
  obtain ⟨us, ws, rfl, rfl⟩ := hn
  have hsplit : ys ++ c.parent :: (us ++ s.kernel.currentProcess :: ws) =
      (ys ++ c.parent :: us) ++ s.kernel.currentProcess :: ws := by simp
  have hidle : s.kernel.currentProcess ≠ s.kernel.kernelIdleProcess := fun he => h.idle (he ▸ by simp)
  rw [hsplit, ← hcurrent] at hu
  have hnext := roundRobinNext_eq hu (by rw [hcurrent, htable.idle]; exact hidle)
  cases hws : ws.find? (canRun (processUnload s.kernel r)) with
  | some t =>
    rw [hws, Option.some_or] at hnext
    obtain ⟨hcur, hyes, hno⟩ := h.switch hy hw r hnext
    by_cases htp : t = c.parent
    · exact .inl (hyes htp)
    · obtain ⟨as, bs, rfl⟩ := List.append_of_mem (List.mem_of_find?_eq_some hws)
      refine .inr ⟨hno htp, .inl ⟨bs.length, length_lt_append_cons as bs t,
        us ++ s.kernel.currentProcess :: as, bs, ?_, rfl⟩⟩
      rw [hcur]
      simp
  | none =>
    obtain ⟨t, ht, hpos⟩ := find?_upto hrun ys us
    rw [hws, Option.none_or, ht] at hnext
    obtain ⟨hcur, hyes, hno⟩ := h.switch hy hw r hnext
    by_cases htp : t = c.parent
    · exact .inl (hyes htp)
    · obtain ⟨as, bs, hys⟩ := hpos.resolve_left htp
      exact .inr ⟨hno htp, .inr ⟨bs.length, .inr ⟨as, bs, by rw [hcur, hys], rfl⟩⟩⟩

/-- From before the parent, it is resumed after a number of switches. -/
theorem Notified.eventually_of_ahead (n : ℕ) : ∀ {s : WaitState}, Notified c s (ys ++ c.parent :: zs) →
    s.waited = true → s.yielded = none → Ahead s.kernel ys n → ∀ frames, ∃ m,
      (s.ticks c m frames).yielded = some c.pid := by
  induction n using Nat.strong_induction_on with
  | _ n ih =>
    intro s h hw hy hn frames
    rcases h.ahead hy hw (frames 0) hn with hdone | ⟨hy', m, hm, ha⟩
    · exact ⟨1, hdone⟩
    · obtain ⟨j, hj⟩ := ih m hm (h.tick (frames 0) true hw) hw hy' ha fun i => frames (i + 1)
      exact ⟨j + 1, hj⟩

theorem Notified.eventually_of_behind (n : ℕ) : ∀ {s : WaitState}, Notified c s (ys ++ c.parent :: zs) →
    s.waited = true → s.yielded = none → Behind s.kernel zs n → ∀ frames, ∃ m,
      (s.ticks c m frames).yielded = some c.pid := by
  induction n using Nat.strong_induction_on with
  | _ n ih =>
    intro s h hw hy hn frames
    rcases h.behind hy hw (frames 0) hn with hdone | ⟨hy', ⟨m, hm, hb⟩ | ⟨m, ha⟩⟩
    · exact ⟨1, hdone⟩
    · obtain ⟨j, hj⟩ := ih m hm (h.tick (frames 0) true hw) hw hy' hb fun i => frames (i + 1)
      exact ⟨j + 1, hj⟩
    · obtain ⟨j, hj⟩ := (h.tick (frames 0) true hw).eventually_of_ahead m hw hy' ha
        fun i => frames (i + 1)
      exact ⟨j + 1, hj⟩

theorem Notified.ticks (n : ℕ) : ∀ {s : WaitState}, Notified c s xs → s.waited = true → ∀ frames,
    Notified c (s.ticks c n frames) xs := by
  induction n with
  | zero => exact fun h _ _ => h
  | succ n ih => exact fun h hw frames => ih (h.tick (frames 0) true hw) hw _

theorem Notified.answered (h : Notified c s xs) (hw : s.waited = true) : Answered c s := by
  intro frames
  have hyield : ∃ n, (s.ticks c n frames).yielded = some c.pid := by
    rcases h.answer with hy | ⟨hy, hne, -⟩
    · exact ⟨0, hy⟩
    · obtain ⟨ys, zs, rfl⟩ := List.append_of_mem h.parent_mem
      rcases h.queued.current with hcur | hcur
      · exact h.eventually_of_ahead _ hw hy (.inl ⟨hcur, rfl⟩) frames
      · rcases List.mem_append.mp hcur with hys | hzs
        · obtain ⟨us, ws, hsplit⟩ := List.append_of_mem hys
          exact h.eventually_of_ahead _ hw hy (.inr ⟨us, ws, hsplit, rfl⟩) frames
        · obtain ⟨us, ws, hsplit⟩ := List.append_of_mem ((List.mem_cons.mp hzs).resolve_left hne)
          exact h.eventually_of_behind _ hw hy ⟨us, ws, hsplit, rfl⟩ frames
  obtain ⟨n, hn⟩ := hyield
  exact ⟨n, c.pid, hn, .inl rfl, (h.ticks n hw frames).stored⟩

/-- A returned call stays returned. -/
theorem WaitState.ticks_yielded (n : ℕ) {v : ℕ} : ∀ {s : WaitState}, s.yielded = some v →
    ∀ frames, (s.ticks c n frames).yielded = some v := by
  induction n with
  | zero => exact fun h _ => h
  | succ n ih =>
    intro s h frames
    refine ih ?_ _
    rw [WaitState.tick, h, if_neg (by simp)]

end Progress

/-! ### Runs -/

/-- The phases of a run; `first` tells which call came first. -/
inductive Phase (c : Calls) (s : WaitState) : (first : Option Bool) → Prop
  | before {xs : List ℕ} (hw : s.waited = false) (he : s.exited = false) (h : Family c s.kernel xs) :
    Phase c s none
  | waiting {xs : List ℕ} (hw : s.waited = true) (he : s.exited = false) (hy : s.yielded = none)
    (h : Waiting c s.kernel xs) : Phase c s (some true)
  | notified {xs : List ℕ} (hw : s.waited = true) (he : s.exited = true) (h : Notified c s xs) :
    Phase c s (some true)
  | gone {xs : List ℕ} (hw : s.waited = false) (he : s.exited = true) (h : Gone c s.kernel xs) :
    Phase c s (some false)
  | lost (hw : s.waited = true) (he : s.exited = true) (hy : s.yielded = some (word32 - esrch)) :
    Phase c s (some false)

section Runs
variable {c : Calls} {s t : WaitState} {os : List WaitOp} {first : Option Bool}

theorem Phase.tick (h : Phase c s first) (r : Registers) (switch : Bool) :
    Phase c (s.tick c r switch) first := by
  cases h with
  | before hw he h => exact .before hw he (h.tick r switch)
  | waiting hw he hy h =>
    have hcur : (interrupt s.kernel r switch).1.currentProcess ≠ c.parent :=
      (h.tick r switch).current_ne
    refine .waiting hw he ?_ (h.tick r switch)
    rw [WaitState.tick, if_neg fun hc => hcur hc.2.2, hy]
  | notified hw he h => exact .notified hw he (h.tick r switch hw)
  | gone hw he h => exact .gone hw he (h.tick r switch)
  | lost hw he hy =>
    refine .lost hw he ?_
    rw [WaitState.tick, hy, if_neg (by simp)]

theorem Phase.wait (h : Phase c s first) {r : Registers} (hs : waitStep c s (.wait r) = some t) :
    Phase c t (first.or (some true)) := by
  rw [waitStep] at hs
  split_ifs at hs with hcan
  obtain rfl := Option.some.inj hs
  cases h with
  | before hw he h =>
    have hwait := h.wait r hcan.1
    generalize systemCall (syscallWaitpid c.pid c.status) s.kernel r = kr at *
    exact .waiting rfl he (if_neg hwait.current_ne) hwait
  | waiting hw _ _ _ => exact absurd hcan.2 (by simp [hw])
  | notified hw _ _ => exact absurd hcan.2 (by simp [hw])
  | gone hw he h =>
    obtain ⟨hcur, heax⟩ := h.wait r
    refine .lost rfl he ?_
    dsimp only
    rw [hcur, if_pos hcan.1, heax]
  | lost hw _ _ => exact absurd hcan.2 (by simp [hw])

theorem Phase.exit (h : Phase c s first) {r : Registers} (hs : waitStep c s (.exit r) = some t) :
    Phase c t (first.or (some false)) := by
  rw [waitStep] at hs
  split_ifs at hs with hcan
  obtain rfl := Option.some.inj hs
  cases h with
  | before hw he h =>
    obtain ⟨ys, hgone⟩ := h.exit r hcan.1
    generalize systemCall (syscallExit c.code) s.kernel r = kr at *
    exact .gone hw rfl hgone
  | waiting hw he hy h =>
    obtain ⟨ys, hnot⟩ := h.exit r hcan.1
    refine .notified hw rfl (?_ : Notified c _ ys)
    rw [hw, hy]
    exact hnot
  | notified _ he _ => exact absurd hcan.2 (by simp [he])
  | gone _ he _ => exact absurd hcan.2 (by simp [he])
  | lost _ he _ => exact absurd hcan.2 (by simp [he])

theorem Phase.run (h : Phase c s first) (hrun : Run (waitStep c) Anything s os t) :
    Phase c t (first.or (firstIsWait os)) := by
  induction hrun generalizing first with
  | nil s => rwa [firstIsWait, Option.or_none]
  | @cons s s' t o os hc hs hrest ih =>
    cases o with
    | tick r switch =>
      obtain rfl := Option.some.inj hs
      exact ih (h.tick r switch)
    | wait r =>
      have h' := ih (h.wait hs)
      rw [Option.or_assoc, Option.some_or] at h'
      exact h'
    | exit r =>
      have h' := ih (h.exit hs)
      rw [Option.or_assoc, Option.some_or] at h'
      exact h'

/-- A call that returned an error stays so. -/
theorem not_answered_of_lost (hpid : c.pid < 2 ^ 31) (hy : s.yielded = some (word32 - esrch)) :
    ¬ Answered c s := by
  intro h
  obtain ⟨n, v, hv, hok, -⟩ := h fun _ => Registers.zero
  rw [WaitState.ticks_yielded n hy] at hv
  obtain rfl := Option.some.inj hv
  simp only [word32, esrch] at hok
  omega

theorem waitStep_wait (hcurrent : s.kernel.currentProcess = c.parent) (hw : s.waited = false)
    (r : Registers) : ∃ t, waitStep c s (.wait r) = some t ∧ t.waited = true := by
  rw [waitStep, if_pos ⟨hcurrent, hw⟩]
  exact ⟨_, rfl, rfl⟩

/-- The child exits, an interrupt resumes the parent, and the parent's call fails. -/
theorem lost_of_exit_first {k : Kernel} {xs : List ℕ} (hfamily : Family c k xs)
    (hchild : k.currentProcess = c.child) {r r' : Registers} {switch : Bool}
    (hparent : (interrupt (systemCall (syscallExit c.code) k r).1 r' switch).1.currentProcess =
      c.parent) (r'' : Registers) :
    ∃ s, Run (waitStep c) Anything ⟨k, false, false, none⟩ [.exit r, .tick r' switch, .wait r''] s ∧
      s.yielded = some (word32 - esrch) := by
  have hexit : waitStep c ⟨k, false, false, none⟩ (.exit r) =
      some ⟨(systemCall (syscallExit c.code) k r).1, false, true, none⟩ := if_pos ⟨hchild, rfl⟩
  rw [← WaitState.tick_kernel c ⟨(systemCall (syscallExit c.code) k r).1, false, true, none⟩]
    at hparent
  obtain ⟨s, hwait, hwaited⟩ := waitStep_wait hparent (WaitState.tick_waited ..) r''
  have hrun : Run (waitStep c) Anything ⟨k, false, false, none⟩
      [.exit r, .tick r' switch, .wait r''] s :=
    .cons trivial hexit (.cons trivial rfl (.single trivial hwait))
  have hphase : Phase c s (some false) :=
    (Phase.before (s := ⟨k, false, false, none⟩) rfl rfl hfamily).run hrun
  refine ⟨s, hrun, ?_⟩
  cases hphase with
  | gone hw _ _ => exact absurd hwaited (by simp [hw])
  | lost _ _ hy => exact hy

/-- The exit status reaches the parent exactly when the parent waits before the child
exits: for every interleaving in which both calls are made. -/
theorem waitpid_answered_iff {k : Kernel} {xs : List ℕ} (hfamily : Family c k xs)
    (hrun : Run (waitStep c) Anything ⟨k, false, false, none⟩ os s) (hw : s.waited = true)
    (he : s.exited = true) : Answered c s ↔ firstIsWait os = some true := by
  have hphase : Phase c s (firstIsWait os) :=
    (Phase.before (s := ⟨k, false, false, none⟩) rfl rfl hfamily).run hrun
  generalize firstIsWait os = first at hphase
  cases hphase with
  | before hw' _ _ => exact absurd hw (by simp [hw'])
  | waiting _ he' _ _ => exact absurd he (by simp [he'])
  | notified _ _ h => exact ⟨fun _ => rfl, fun _ => h.answered hw⟩
  | gone hw' _ _ => exact absurd hw (by simp [hw'])
  | lost _ _ hy =>
    exact ⟨fun h => absurd h (not_answered_of_lost hfamily.pid_lt hy), fun h => by simp at h⟩

end Runs

/-! ### A parent and a child -/

/-- The parent at 16 has the page of `onePageMmu`, the child at 32 an empty address
space; the idle process is at 8. -/
def parentAndChild (current : ℕ) : Kernel where
  mmu := onePageMmu
  cr3 := 0x420000
  oldPdt := 0x420000
  heap := []
  procs p := { Process.zero with
    pid := p / 16
    state := if p = current then .running else .ready
    pdt := if p = 32 then 0x423000 else 0x420000
    parent := if p = 32 then 16 else 0
    next := if p = 16 then 32 else 0 }
  files _ _ := .zero
  handlers _ _ := 2
  readyQueue := 16
  currentProcess := current
  kernelIdleProcess := 8
  roundRobin := true
  nextPid := 3
  rootIno := 2

/-- The parent waits for pid 2 with the status at `0x100`, and the child exits with 7. -/
def waitForSeven : Calls := ⟨16, 32, 2, 0x100, 7⟩

theorem onePageMmu_no_table {t : ℕ} : ¬ IsTable onePageMmu.mem 0x423000 768 t := by
  rintro ⟨k, hk, hp, -⟩
  have hchild : IsPage 0x423000 := ⟨by decide, by decide⟩
  have hzero : SamePage onePageMmu.mem (fun _ => 0) 0x423000 := by
    refine (samePage_setEntry (i := 0) ⟨by decide, by decide⟩ (by decide) hchild (by decide)).trans
      ((samePage_setEntry (i := 0) ⟨by decide, by decide⟩ (by decide) hchild (by decide)).trans ?_)
    exact fun x hx hx' => if_neg (by omega)
  rw [entryAt_of_zero hchild (by omega) hzero] at hp
  cases hp

theorem waitForSeven_apart : StatusApart onePageMmu 0x420000 0x423000 0x100 where
  region := ⟨by decide, by decide⟩
  small := by simp [Bitmap.Small, Bitmap.len, onePageMmu, oneTableMmu, oneTableBitmap]
  dir := ⟨by decide, by decide⟩
  childDir := ⟨by decide, by decide⟩
  childSelf := onePageMmu_no_table
  dir_ne := onePageMmu_no_table
  table_ne := onePageMmu_no_table
  status_pos := by decide
  status_lt := by decide
  inside := by decide
  mapped := ⟨userEntry 0x422000, by decide +kernel, by decide, by decide +kernel⟩

theorem parentAndChild_family (current : ℕ) (h : current ∈ [16, 32]) :
    Family waitForSeven (parentAndChild current) [16, 32] := by
  have hpid : ∀ q, ((parentAndChild current).procs q).pid = q / 16 := fun _ => rfl
  have hwaitpid : ∀ q, ((parentAndChild current).procs q).waitpid = 0 := fun _ => rfl
  have hstate : ∀ q, ((parentAndChild current).procs q).state =
    if q = current then .running else .ready := fun _ => rfl
  have hidle : (parentAndChild current).kernelIdleProcess = 8 := rfl
  refine ⟨⟨⟨rfl, ⟨rfl, by decide, rfl, by decide, rfl⟩, by decide, .inr h, fun _ _ => rfl, ?_⟩,
    by decide, by decide, by decide, ?_, rfl, rfl, by decide, by decide, ?_, by decide,
    waitForSeven_apart⟩, ?_, ?_⟩
  · intro q _ hrun
    rw [hstate] at hrun
    by_contra hne
    have hne' : ¬ q = current := hne
    rw [if_neg hne'] at hrun
    cases hrun
  · rw [hidle]
    decide
  · intro q hq hp
    rw [hpid] at hp
    revert q
    decide
  · rw [hstate]
    split_ifs <;> decide
  · intro q _
    rw [hwaitpid]
    decide

/-- The parent waits, the child is switched to and exits: the parent gets 7. -/
theorem waitpid_answered_of_wait_first : ∃ s,
    Run (waitStep waitForSeven) Anything ⟨parentAndChild 16, false, false, none⟩
      [.wait .zero, .tick .zero true, .exit .zero] s ∧ Answered waitForSeven s := by
  let s₁ : WaitState := ⟨(systemCall (syscallWaitpid 2 0x100) (parentAndChild 16) .zero).1, true, false,
    none⟩
  let s₂ := s₁.tick waitForSeven .zero true
  let s₃ : WaitState := { s₂ with
    kernel := (systemCall (syscallExit 7) s₂.kernel .zero).1, exited := true }
  have hwait : waitStep waitForSeven ⟨parentAndChild 16, false, false, none⟩ (.wait .zero) =
      some s₁ := by
    rw [waitStep, if_pos ⟨rfl, rfl⟩]
    exact congrArg (fun y => some (WaitState.mk s₁.kernel true false y))
      (if_neg (by decide +kernel))
  have hexit : waitStep waitForSeven s₂ (.exit .zero) = some s₃ := by
    rw [waitStep, if_pos ⟨by decide +kernel, rfl⟩]
    rfl
  have hrun : Run (waitStep waitForSeven) Anything ⟨parentAndChild 16, false, false, none⟩
      [.wait .zero, .tick .zero true, .exit .zero] s₃ :=
    .cons trivial hwait (.cons trivial rfl (.cons trivial hexit (.nil _)))
  exact ⟨s₃, hrun, (waitpid_answered_iff (parentAndChild_family 16 (by decide)) hrun rfl rfl).mpr rfl⟩

/-- The interrupt after the child's exit resumes the parent. -/
theorem parentAndChild_resumed :
    (interrupt (systemCall (syscallExit waitForSeven.code) (parentAndChild 32) .zero).1 .zero
      true).1.currentProcess = waitForSeven.parent := by
  have hfamily := parentAndChild_family 32 (by decide)
  obtain ⟨w, hw, heq⟩ := systemCall_exit (parentAndChild 32) [16] [] waitForSeven.code .zero
    hfamily.queued hfamily.idle rfl
  obtain ⟨n, par, pre, hparent⟩ := hw.other 16 (by decide)
  rw [notify_foldl_eq_self (by simp [hparent, parentAndChild, Process.zero])] at heq
  rw [heq]
  have hidle : w.kernelIdleProcess = 8 := hw.idle
  have hqueued : Queued w [16] := hw.parked.queued (hw.current.trans hw.idle.symm)
  obtain ⟨htable, hcurrent, -, hstate⟩ := processUnload_spec (r := .zero) hqueued.roundRobin
  have hrun : canRun (processUnload w .zero) 16 = true := by
    have hst := hstate 16
    rw [hw.current, if_neg (by decide), hparent] at hst
    rw [canRun, htable.field_eq Process.suspended fun _ _ _ _ => rfl, hst, hparent]
    rfl
  have hnext : roundRobinNext (processUnload w .zero) = some 16 := by
    rw [roundRobinNext_idle (hqueued.unload .zero) ?_ ?_, List.find?_cons_of_pos hrun]
    · rw [hcurrent, htable.idle, hw.current, hw.idle]
    · rw [htable.idle, hidle]
      decide
  rw [(interrupt_spec hqueued true).1.current_eq, resumedProcess, if_pos rfl, hnext,
    Option.getD_some, waitForSeven]

/-- The child exits and the parent waits afterwards: the call fails with `ESRCH`. -/
theorem waitpid_lost_of_exit_first : ∃ s,
    Run (waitStep waitForSeven) Anything ⟨parentAndChild 32, false, false, none⟩
      [.exit .zero, .tick .zero true, .wait .zero] s ∧
    s.yielded = some (word32 - esrch) ∧ ¬ Answered waitForSeven s := by
  obtain ⟨s, hrun, hlost⟩ := lost_of_exit_first (parentAndChild_family 32 (by decide))
    rfl parentAndChild_resumed .zero
  exact ⟨s, hrun, hlost, not_answered_of_lost (by decide) hlost⟩

end DosKernel
