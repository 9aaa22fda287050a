import DosKernel.Lib.Runs
import DosKernel.Process.Table

/-! Context switches. An interrupt saves the frame of the current process in its
process structure, may switch to another process of the ready queue, and leaves the
frame of the process it resumes. -/

namespace DosKernel

open Lib

/-- `irq_common_stub`: `process_unload`, the handler, which runs
`process_round_robin` or not, and `process_reload`. -/
def interrupt (k : Kernel) (r : Registers) (switch : Bool) : Kernel × Registers :=
  let k := processUnload k r
  let kr := if switch then processRoundRobin k r else (k, r)
  processReload kr.1 kr.2

theorem mmuLoadPdt_eq (k : Kernel) (pdt : ℕ) :
    mmuLoadPdt k pdt = { k with cr3 := pdt, mmu := { k.mmu with currentPdt := k.cr3 } } := by
  unfold mmuLoadPdt
  split_ifs with h
  · rw [h]
  · rfl

/-- The two states differ only in what a switch may change: the loaded directory, the
current process, and the states, frames and preemption counts of processes. -/
structure SameTable (k k' : Kernel) : Prop where
  mem : k'.mmu.mem = k.mmu.mem
  bitmap : k'.mmu.bitmap = k.mmu.bitmap
  readyQueue : k'.readyQueue = k.readyQueue
  idle : k'.kernelIdleProcess = k.kernelIdleProcess
  roundRobin : k'.roundRobin = k.roundRobin
  proc : ∀ q, ∃ st fr n, k'.procs q = { k.procs q with state := st, r := fr, preemptions := n }

namespace SameTable

variable {k k' k'' : Kernel}

theorem refl (k : Kernel) : SameTable k k := ⟨rfl, rfl, rfl, rfl, rfl, fun _ => ⟨_, _, _, rfl⟩⟩

theorem trans (h : SameTable k k') (h' : SameTable k' k'') : SameTable k k'' := by
  refine ⟨h'.mem.trans h.mem, h'.bitmap.trans h.bitmap, h'.readyQueue.trans h.readyQueue,
    h'.idle.trans h.idle, h'.roundRobin.trans h.roundRobin, fun q => ?_⟩
  obtain ⟨st, fr, n, e⟩ := h.proc q
  obtain ⟨st', fr', n', e'⟩ := h'.proc q
  exact ⟨st', fr', n', by rw [e', e]⟩

theorem next_eq (h : SameTable k k') : k'.next = k.next := by
  funext q
  obtain ⟨st, fr, n, e⟩ := h.proc q
  rw [Kernel.next, e, Kernel.next]

theorem nodes_eq (h : SameTable k k') (p : ℕ) : k'.nodes p = k.nodes p := by
  rw [Kernel.nodes, h.next_eq, Kernel.nodes]

/-- Everything else in a process structure is the same. -/
theorem field_eq {α : Type*} (h : SameTable k k') (f : Process → α)
    (hf : ∀ a st fr n, f { a with state := st, r := fr, preemptions := n } = f a) (q : ℕ) :
    f (k'.procs q) = f (k.procs q) := by
  obtain ⟨st, fr, n, e⟩ := h.proc q
  rw [e, hf]

theorem signal_eq (h : SameTable k k') (q : ℕ) : (k'.procs q).signal = (k.procs q).signal :=
  h.field_eq Process.signal (fun _ _ _ _ => rfl) q

end SameTable

/-- Only the state, the frame or the preemption count of one process changes. -/
theorem SameTable.setProc (k : Kernel) (p : ℕ) (f : Process → Process)
    (hf : ∀ a, ∃ st fr n, f a = { a with state := st, r := fr, preemptions := n }) :
    SameTable k (k.setProc p f) := by
  refine ⟨rfl, rfl, rfl, rfl, rfl, fun q => ?_⟩
  by_cases hq : q = p
  · rw [hq, Kernel.setProc_self]
    exact hf _
  · rw [Kernel.setProc_of_ne k f hq]
    exact ⟨_, _, _, rfl⟩

theorem SameTable.mmuLoadPdt (k : Kernel) (pdt : ℕ) : SameTable k (mmuLoadPdt k pdt) := by
  rw [mmuLoadPdt_eq]
  exact ⟨rfl, rfl, rfl, rfl, rfl, fun _ => ⟨_, _, _, rfl⟩⟩

/-! ### One interrupt -/

/-- What a step of the switching code does to the state and the frame of every
process. -/
structure Switches (k k' : Kernel) (current : ℕ) (frame : ℕ → Registers)
    (state : ℕ → ProcessState) : Prop where
  table : SameTable k k'
  current_eq : k'.currentProcess = current
  frame_eq : ∀ q, (k'.procs q).r = frame q
  state_eq : ∀ q, (k'.procs q).state = state q

theorem Switches.proc_eq {k k' : Kernel} {current : ℕ} {frame : ℕ → Registers}
    {state : ℕ → ProcessState} (h : Switches k k' current frame state) (q : ℕ) :
    ∃ n, k'.procs q = { k.procs q with state := state q, r := frame q, preemptions := n } := by
  obtain ⟨st, fr, n, e⟩ := h.table.proc q
  have hframe := h.frame_eq q
  have hstate := h.state_eq q
  rw [e] at hframe hstate
  exact ⟨n, by rw [e, ← hframe, ← hstate]⟩

section Interrupt
variable {k : Kernel} {r : Registers} {p : ℕ}

theorem processUnload_spec (hr : k.roundRobin = true) :
    Switches k (processUnload k r) k.currentProcess
      (fun q => if q = k.currentProcess then r else (k.procs q).r)
      fun q => if q = k.currentProcess then .ready else (k.procs q).state := by
  have hload : SameTable k (mmuLoadKernelPdt k) ∧
      (mmuLoadKernelPdt k).currentProcess = k.currentProcess ∧
      (mmuLoadKernelPdt k).procs = k.procs := by
    unfold mmuLoadKernelPdt
    split_ifs
    · rw [mmuLoadPdt_eq]
      exact ⟨⟨rfl, rfl, rfl, rfl, rfl, fun _ => ⟨_, _, _, rfl⟩⟩, rfl, rfl⟩
    · exact ⟨SameTable.refl k, rfl, rfl⟩
  rw [processUnload, if_pos hr]
  refine ⟨hload.1.trans (SameTable.setProc _ _ _ fun a => ⟨_, _, _, rfl⟩), hload.2.1, ?_, ?_⟩
  · intro q
    by_cases hq : q = k.currentProcess
    · rw [hq, Kernel.setProc_self, if_pos rfl]
    · rw [Kernel.setProc_of_ne _ _ hq, if_neg hq, hload.2.2]
  · intro q
    by_cases hq : q = k.currentProcess
    · rw [hq, Kernel.setProc_self, if_pos rfl]
    · rw [Kernel.setProc_of_ne _ _ hq, if_neg hq, hload.2.2]

theorem processReload_spec (hr : k.roundRobin = true) :
    Switches k (processReload k r).1 k.currentProcess (fun q => (k.procs q).r)
      (fun q => if q = k.currentProcess then .running else (k.procs q).state) ∧
    (processReload k r).2 =
      if (k.procs k.currentProcess).state = .running then r else (k.procs k.currentProcess).r := by
  rw [processReload, if_pos hr]
  dsimp only
  split_ifs with hrun
  · refine ⟨⟨SameTable.refl k, rfl, fun _ => rfl, fun q => ?_⟩, rfl⟩
    split_ifs with hq
    · rw [hq, hrun]
    · rfl
  · refine ⟨⟨(SameTable.setProc k _ _ fun a => ⟨_, _, _, rfl⟩).trans (SameTable.mmuLoadPdt _ _),
      ?_, fun q => ?_, fun q => ?_⟩, rfl⟩
    · rw [mmuLoadPdt_eq, Kernel.setProc]
    · rw [mmuLoadPdt_eq]
      by_cases hq : q = k.currentProcess
      · rw [hq, Kernel.setProc_self]
      · rw [Kernel.setProc_of_ne _ _ hq]
    · rw [mmuLoadPdt_eq]
      by_cases hq : q = k.currentProcess
      · rw [hq, Kernel.setProc_self, if_pos rfl]
      · rw [Kernel.setProc_of_ne _ _ hq, if_neg hq]

theorem processSwitch_spec (hne : k.currentProcess ≠ p) (hsig : (k.procs p).signal = 0) :
    Switches k (processSwitch k p r).1 p (fun q => (k.procs q).r)
      (fun q => if q = p then .running else if q = k.currentProcess then .ready
        else (k.procs q).state) ∧
    (processSwitch k p r).2 = (k.procs p).r := by
  have hp : (k.setProc k.currentProcess ({ · with state := .ready })).procs p = k.procs p :=
    Kernel.setProc_of_ne k _ hne.symm
  have hsig' : ¬ ((k.setProc k.currentProcess ({ · with state := .ready })).procs p).signal ≠ 0 := by
    rw [hp, hsig]
    simp
  rw [processSwitch, if_pos hne]
  dsimp only
  rw [if_neg hsig']
  refine ⟨⟨?_, ?_, fun q => ?_, fun q => ?_⟩, by rw [hp]⟩
  · have hcur : SameTable k
        { k.setProc k.currentProcess ({ · with state := .ready }) with currentProcess := p } :=
      (SameTable.setProc k k.currentProcess ({ · with state := .ready })
        fun a => ⟨_, _, _, rfl⟩).trans ⟨rfl, rfl, rfl, rfl, rfl, fun _ => ⟨_, _, _, rfl⟩⟩
    exact (hcur.trans (SameTable.setProc _ p ({ · with state := .running })
      fun a => ⟨_, _, _, rfl⟩)).trans (SameTable.mmuLoadPdt _ _)
  · rw [mmuLoadPdt_eq, Kernel.setProc]
  · rw [mmuLoadPdt_eq]
    by_cases hq : q = p
    · rw [hq, Kernel.setProc_self, hp]
    · rw [Kernel.setProc_of_ne _ _ hq]
      by_cases hc : q = k.currentProcess
      · rw [hc, Kernel.setProc_self]
      · rw [Kernel.setProc_of_ne _ _ hc]
  · rw [mmuLoadPdt_eq]
    by_cases hq : q = p
    · rw [hq, Kernel.setProc_self, if_pos rfl]
    · rw [Kernel.setProc_of_ne _ _ hq, if_neg hq]
      by_cases hc : q = k.currentProcess
      · rw [hc, Kernel.setProc_self, if_pos rfl]
      · rw [Kernel.setProc_of_ne _ _ hc, if_neg hc]

/-- Saving the frame of a current process that is saved already changes nothing but
its preemption count. -/
theorem processUnload_saved (hr : k.roundRobin = true)
    (hcur : (k.procs k.currentProcess).r = r) (hready : (k.procs k.currentProcess).state = .ready) :
    Switches k (processUnload k r) k.currentProcess (fun q => (k.procs q).r)
      fun q => (k.procs q).state := by
  obtain ⟨htable, hcurrent, hframe, hstate⟩ := processUnload_spec (r := r) hr
  refine ⟨htable, hcurrent, fun q => (hframe q).trans ?_, fun q => (hstate q).trans ?_⟩
  · split_ifs with hq
    · rw [hq, hcur]
    · rfl
  · split_ifs with hq
    · rw [hq, hready]
    · rfl

/-- A switch from a saved process to `p`; the current process stays when there is
nothing to switch to. -/
theorem processSwitch_saved (hsig : (k.procs p).signal = 0)
    (hcur : (k.procs k.currentProcess).r = r) (hready : (k.procs k.currentProcess).state = .ready) :
    Switches k (processSwitch k p r).1 p (fun q => (k.procs q).r)
      (fun q => if q = p ∧ p ≠ k.currentProcess then .running else (k.procs q).state) ∧
    (processSwitch k p r).2 = (k.procs p).r := by
  by_cases hne : k.currentProcess = p
  · rw [processSwitch, if_neg (not_not_intro hne)]
    refine ⟨⟨SameTable.refl k, hne, fun _ => rfl, fun q => ?_⟩, ?_⟩
    · rw [if_neg fun h => h.2 hne.symm]
    · rw [← hne, hcur]
  · obtain ⟨⟨htable, hcurrent, hframe, hstate⟩, hr⟩ := processSwitch_spec (r := r) hne hsig
    refine ⟨⟨htable, hcurrent, hframe, fun q => (hstate q).trans ?_⟩, hr⟩
    by_cases hq : q = p
    · rw [if_pos hq, if_pos ⟨hq, Ne.symm hne⟩]
    · have hnp : ¬(q = p ∧ p ≠ k.currentProcess) := fun h => hq h.1
      rw [if_neg hq, if_neg hnp]
      split_ifs with hc
      · rw [hc, hready]
      · rfl

theorem processDoRoundRobin_spec (hr : k.roundRobin = true) (hp : p ≠ 0)
    (hsig : (k.procs p).signal = 0)
    (hcur : (k.procs k.currentProcess).r = r) (hready : (k.procs k.currentProcess).state = .ready) :
    Switches k (processDoRoundRobin k p r).1 p (fun q => (k.procs q).r)
      (fun q => if q = p ∧ p ≠ k.currentProcess then .running else (k.procs q).state) ∧
    (processDoRoundRobin k p r).2 = (k.procs p).r := by
  rw [processDoRoundRobin, if_neg hp]
  split_ifs with hidle
  · obtain ⟨htable, hcurrent, hframe, hstate⟩ := processUnload_saved hr hcur hready
    have h := processSwitch_saved (k := processUnload k r) (r := r) (p := p)
      ((htable.signal_eq p).trans hsig) (by rw [hcurrent, hframe, hcur])
      (by rw [hcurrent, hstate, hready])
    rw [hcurrent] at h
    obtain ⟨⟨htable', hcurrent', hframe', hstate'⟩, hr'⟩ := h
    refine ⟨⟨htable.trans htable', hcurrent', fun q => (hframe' q).trans (hframe q),
      fun q => (hstate' q).trans ?_⟩, hr'.trans (hframe p)⟩
    rw [hstate]
  · exact processSwitch_saved hsig hcur hready

end Interrupt

/-- The queue is the list `xs` of process structures, round robin is enabled, no
process has a pending signal and none but the current one is running. -/
structure Queued (k : Kernel) (xs : List ℕ) : Prop where
  roundRobin : k.roundRobin = true
  list : IsList k.next k.readyQueue xs
  address : ∀ q ∈ xs, q < word32
  current : k.currentProcess = k.kernelIdleProcess ∨ k.currentProcess ∈ xs
  signal : ∀ q ∈ xs, (k.procs q).signal = 0
  running : ∀ q ∈ xs, (k.procs q).state = .running → q = k.currentProcess

def resumedProcess (k : Kernel) (r : Registers) (switch : Bool) : ℕ :=
  if switch then (roundRobinNext (processUnload k r)).getD k.currentProcess else k.currentProcess

section Queue
variable {k : Kernel} {r : Registers} {p : ℕ} {xs ys zs : List ℕ}

theorem nodes_behind (hlist : IsList k.next k.readyQueue (ys ++ p :: zs))
    (haddr : ∀ q ∈ ys ++ p :: zs, q < word32) : k.nodes (k.procs p).next = zs := by
  have hlen := hlist.length_le haddr
  refine hlist.next_of_append.walk_eq (le_trans ?_ hlen)
  simp only [List.length_append, List.length_cons]
  omega

theorem roundRobinNext_mem (hlist : IsList k.next k.readyQueue xs) (haddr : ∀ q ∈ xs, q < word32)
    (hcur : k.currentProcess = k.kernelIdleProcess ∨ k.currentProcess ∈ xs)
    (hp : roundRobinNext k = some p) : p ∈ xs ∧ canRun k p = true := by
  rw [roundRobinNext, Option.or_eq_some_iff] at hp
  rcases hp with hp | ⟨-, hp⟩
  · split_ifs at hp with hc
    obtain ⟨ys, zs, rfl⟩ := List.append_of_mem (hcur.resolve_left hc.2)
    rw [nodes_behind hlist haddr] at hp
    exact ⟨List.mem_append_right _ (List.mem_cons_of_mem _ (List.mem_of_find?_eq_some hp)),
      List.find?_some hp⟩
  · rw [Kernel.nodes, hlist.walk_eq (hlist.length_le haddr)] at hp
    exact ⟨(List.takeWhile_sublist _).mem (List.mem_of_find?_eq_some hp), List.find?_some hp⟩

theorem processRoundRobin_spec (h : Queued k xs) (hcur : (k.procs k.currentProcess).r = r)
    (hready : (k.procs k.currentProcess).state = .ready) :
    Switches k (processRoundRobin k r).1 ((roundRobinNext k).getD k.currentProcess)
      (fun q => (k.procs q).r)
      (fun q => if q = (roundRobinNext k).getD k.currentProcess ∧
          (roundRobinNext k).getD k.currentProcess ≠ k.currentProcess then .running
        else (k.procs q).state) ∧
    (processRoundRobin k r).2 = (k.procs ((roundRobinNext k).getD k.currentProcess)).r := by
  rw [processRoundRobin, if_pos h.roundRobin]
  cases hnext : roundRobinNext k with
  | none =>
    refine ⟨⟨SameTable.refl k, rfl, fun _ => rfl, fun q => ?_⟩, hcur.symm⟩
    rw [Option.getD_none, if_neg fun h => h.2 rfl]
    rfl
  | some t =>
    have ht := (roundRobinNext_mem h.list h.address h.current hnext).1
    exact processDoRoundRobin_spec h.roundRobin (h.list.ne_zero ht) (h.signal t ht) hcur hready

/-- Saving the current process keeps the queue. -/
theorem Queued.unload (h : Queued k xs) (r : Registers) : Queued (processUnload k r) xs := by
  obtain ⟨htable, hcurrent, -, hstate⟩ := processUnload_spec (r := r) h.roundRobin
  refine ⟨htable.roundRobin.trans h.roundRobin, ?_, h.address, ?_, ?_, ?_⟩
  · rw [htable.next_eq, htable.readyQueue]
    exact h.list
  · rw [hcurrent, htable.idle]
    exact h.current
  · exact fun q hq => (htable.signal_eq q).trans (h.signal q hq)
  · intro q hq hrun
    rw [hstate] at hrun
    rw [hcurrent]
    split_ifs at hrun with hqc
    exact h.running q hq hrun

/-- An interrupt saves `r` for the current process and resumes that process, or one
of the queue, with the frame saved for it. -/
theorem interrupt_spec (h : Queued k xs) (switch : Bool) :
    Switches k (interrupt k r switch).1 (resumedProcess k r switch)
      (Function.update (fun q => (k.procs q).r) k.currentProcess r)
      (fun q => if q = resumedProcess k r switch then .running
        else if q = k.currentProcess then .ready else (k.procs q).state) ∧
    (interrupt k r switch).2 =
      Function.update (fun q => (k.procs q).r) k.currentProcess r (resumedProcess k r switch) := by
  obtain ⟨htable, hcurrent, hframe, hstate⟩ := processUnload_spec (r := r) h.roundRobin
  have hunload := h.unload r
  have hframe' : ∀ q, ((processUnload k r).procs q).r =
      Function.update (fun q => (k.procs q).r) k.currentProcess r q := by
    intro q
    rw [hframe, Function.update_apply]
  have hcur : ((processUnload k r).procs (processUnload k r).currentProcess).r = r := by
    rw [hframe, if_pos hcurrent]
  have hready : ((processUnload k r).procs (processUnload k r).currentProcess).state = .ready := by
    rw [hstate, if_pos hcurrent]
  rw [interrupt, resumedProcess]
  generalize processUnload k r = u at *
  have handler : Switches u (if switch then processRoundRobin u r else (u, r)).1
      (if switch then (roundRobinNext u).getD k.currentProcess else k.currentProcess)
      (fun q => (u.procs q).r)
      (fun q => if q = (if switch then (roundRobinNext u).getD k.currentProcess
            else k.currentProcess) ∧
          (if switch then (roundRobinNext u).getD k.currentProcess else k.currentProcess) ≠
            k.currentProcess then .running
        else (u.procs q).state) ∧
      (if switch then processRoundRobin u r else (u, r)).2 =
        (u.procs (if switch then (roundRobinNext u).getD k.currentProcess
          else k.currentProcess)).r := by
    cases switch with
    | true =>
      have hrr := processRoundRobin_spec hunload hcur hready
      rw [hcurrent] at hrr
      exact hrr
    | false =>
      have hstay : ∀ q, ¬ (q = k.currentProcess ∧ k.currentProcess ≠ k.currentProcess) :=
        fun q h => h.2 rfl
      refine ⟨⟨SameTable.refl u, hcurrent, fun _ => rfl, fun q => ?_⟩, ?_⟩
      · exact (if_neg (hstay q)).symm
      · exact (hcurrent ▸ hcur).symm
  generalize (if switch then (roundRobinNext u).getD k.currentProcess else k.currentProcess) = t at *
  obtain ⟨hsw, hret⟩ := handler
  generalize (if switch then processRoundRobin u r else (u, r)) = v at *
  obtain ⟨hreload, hret'⟩ := processReload_spec (k := v.1) (r := v.2)
    (hsw.table.roundRobin.trans hunload.roundRobin)
  rw [hsw.current_eq] at hreload hret'
  refine ⟨⟨(htable.trans hsw.table).trans hreload.table, hreload.current_eq, fun q => ?_,
    fun q => ?_⟩, ?_⟩
  · rw [hreload.frame_eq, hsw.frame_eq, hframe']
  · rw [hreload.state_eq]
    by_cases hq : q = t
    · rw [if_pos hq, if_pos hq]
    · have hnt : ¬(q = t ∧ t ≠ k.currentProcess) := fun h => hq h.1
      rw [if_neg hq, if_neg hq, hsw.state_eq, if_neg hnt, hstate]
  · rw [hret', hret, hsw.frame_eq, ite_self, hframe']

/-- A process other than the current one is resumed only if it can run. -/
theorem resumedProcess_cases (h : Queued k xs) (switch : Bool) :
    resumedProcess k r switch = k.currentProcess ∨
      resumedProcess k r switch ∈ xs ∧ (k.procs (resumedProcess k r switch)).suspended = false := by
  rw [resumedProcess]
  split_ifs with hs
  · cases hnext : roundRobinNext (processUnload k r) with
    | none => exact .inl rfl
    | some t =>
      have hu := h.unload r
      obtain ⟨ht, hrun⟩ := roundRobinNext_mem hu.list hu.address hu.current hnext
      obtain ⟨st, fr, n, e⟩ := (processUnload_spec (r := r) h.roundRobin).table.proc t
      rw [canRun, Bool.and_eq_true, Bool.not_eq_true', e] at hrun
      exact .inr ⟨ht, hrun.1⟩
  · exact .inl rfl

theorem Queued.interrupt (h : Queued k xs) (r : Registers) (switch : Bool) :
    Queued (interrupt k r switch).1 xs := by
  obtain ⟨hsw, -⟩ := interrupt_spec (r := r) h switch
  refine ⟨hsw.table.roundRobin.trans h.roundRobin, ?_, h.address, ?_, ?_, ?_⟩
  · rw [hsw.table.next_eq, hsw.table.readyQueue]
    exact h.list
  · rw [hsw.current_eq, hsw.table.idle]
    rcases resumedProcess_cases (r := r) h switch with hcur | hmem
    · rw [hcur]
      exact h.current
    · exact .inr hmem.1
  · exact fun q hq => (hsw.table.signal_eq q).trans (h.signal q hq)
  · intro q hq hrun
    rw [hsw.state_eq] at hrun
    rw [hsw.current_eq]
    -- A process other than the resumed one runs only if it ran before, so it was the
    -- current one, and that one is ready now.
    split_ifs at hrun with hqp hqc
    · exact hqp
    · exact absurd (h.running q hq hrun) hqc

end Queue

/-! ### Runs of interrupts -/

/-- The kernel, the frame each process had at its last interruption (at first the
frame it was made with), and the process resumed last with the frame it got. -/
structure SwitchState where
  kernel : Kernel
  saved : ℕ → Registers
  resumed : Option (ℕ × Registers)

/-- Before the first interrupt. -/
def SwitchState.start (k : Kernel) : SwitchState := ⟨k, fun p => (k.procs p).r, none⟩

/-- An interrupt with the frame `r`, whose handler runs `process_round_robin` or not. -/
def SwitchState.interrupted (s : SwitchState) (o : Registers × Bool) : SwitchState :=
  let kr := interrupt s.kernel o.1 o.2
  ⟨kr.1, Function.update s.saved s.kernel.currentProcess o.1, some (kr.1.currentProcess, kr.2)⟩

/-- Every interrupt is handled. -/
def switchStep (s : SwitchState) (o : Registers × Bool) : Option SwitchState :=
  some (s.interrupted o)

/-- The saved frames are those in the process structures, and the process resumed
last is the current one. -/
structure SwitchInv (s : SwitchState) (xs : List ℕ) : Prop where
  queued : Queued s.kernel xs
  saved : ∀ p, (s.kernel.procs p).r = s.saved p
  resumed : ∀ p f, s.resumed = some (p, f) → p = s.kernel.currentProcess ∧ f = s.saved p

theorem SwitchInv.step {s t : SwitchState} {o : Registers × Bool} {xs : List ℕ}
    (h : SwitchInv s xs) (hstep : switchStep s o = some t) : SwitchInv t xs := by
  obtain ⟨hsw, hret⟩ := interrupt_spec (r := o.1) h.queued o.2
  have hsaved : Function.update (fun q => (s.kernel.procs q).r) s.kernel.currentProcess o.1 =
      Function.update s.saved s.kernel.currentProcess o.1 := by
    rw [funext h.saved]
  rw [hsaved] at hsw hret
  rw [switchStep, SwitchState.interrupted, Option.some.injEq] at hstep
  subst hstep
  refine ⟨h.queued.interrupt o.1 o.2, hsw.frame_eq, ?_⟩
  rintro q f hqf
  obtain ⟨rfl, rfl⟩ := Prod.mk.inj (Option.some.inj hqf)
  refine ⟨rfl, ?_⟩
  rw [hret, hsw.current_eq]

/-- Context switches are transparent: whenever an interrupt resumes a process, the
frame it leaves is the one saved for that process at its last interruption, and of
the queued processes only the current one is running. -/
theorem resumed_with_saved_frame {k : Kernel} {xs : List ℕ} {os : List (Registers × Bool)}
    {s : SwitchState} (hk : Queued k xs)
    (h : Run switchStep Anything (.start k) os s) :
    (∀ p f, s.resumed = some (p, f) → p = s.kernel.currentProcess ∧ f = s.saved p) ∧
    ∀ q ∈ xs, (s.kernel.procs q).state = .running → q = s.kernel.currentProcess := by
  have hinv : SwitchInv s xs :=
    h.invariant (I := fun s => SwitchInv s xs) (fun _ _ _ hs _ hstep => hs.step hstep)
      ⟨hk, fun _ => rfl, fun _ _ h => nomatch h⟩
  exact ⟨hinv.resumed, hinv.queued.running⟩

/-- The idle process at 8 is running; 16 and 32 are queued. -/
def twoProcesses : Kernel where
  mmu := ⟨fun _ => 0, ⟨0x400000, 64, fun _ => 0#32⟩, 0xc0400000, 0x1000, 0x1000⟩
  cr3 := 0x1000
  oldPdt := 0x1000
  heap := []
  procs p := if p = 8 then { Process.zero with state := .running, pdt := 0x1000 }
    else { Process.zero with
      pid := p / 16, state := .ready, next := if p = 16 then 32 else 0,
      r := { Registers.zero with eip := p } }
  files _ _ := .zero
  handlers _ _ := 2
  readyQueue := 16
  currentProcess := 8
  kernelIdleProcess := 8
  roundRobin := true
  nextPid := 3
  rootIno := 2

theorem twoProcesses_queued : Queued twoProcesses [16, 32] where
  roundRobin := rfl
  list := ⟨rfl, by decide, rfl, by decide, rfl⟩
  address := by decide
  current := .inl rfl
  signal := by decide
  running := by decide

/-- After 16 was interrupted with the frame `r` and 32 ran, 16 gets `r` back. -/
theorem resumed_with_saved_frame_of_three : ∃ s, Run switchStep Anything (.start twoProcesses)
      [(.zero, true), ({ Registers.zero with eip := 5 }, true), (.zero, true)] s ∧
    s.resumed = some (16, { Registers.zero with eip := 5 }) := by
  let s := (((SwitchState.start twoProcesses).interrupted (.zero, true)).interrupted
    ({ Registers.zero with eip := 5 }, true)).interrupted (.zero, true)
  have hrun : Run switchStep Anything (.start twoProcesses)
      [(.zero, true), ({ Registers.zero with eip := 5 }, true), (.zero, true)] s :=
    .cons trivial rfl (.cons trivial rfl (.cons trivial rfl (.nil _)))
  have hresumed : s.resumed.map Prod.fst = some 16 := by decide +kernel
  have hsaved : s.saved 16 = { Registers.zero with eip := 5 } := by decide +kernel
  obtain ⟨⟨p, f⟩, hpf, hp⟩ := Option.map_eq_some_iff.mp hresumed
  obtain ⟨-, hf⟩ := (resumed_with_saved_frame twoProcesses_queued hrun).1 p f hpf
  obtain rfl : p = 16 := hp
  exact ⟨s, hrun, by rw [hpf, hf, hsaved]⟩

end DosKernel
