import DosKernel.Process.System

/-! Which process structures the code reads and writes, in its order. Every way to end a
process frees its structure and uses it once more: the switch to the idle process writes
the state of the current one, and `syscall_kill` reads the pid of its target. -/

namespace DosKernel

open Lib

/-- A field of the process structure at `p` is read or written, or the structure is freed or
allocated. -/
inductive Access
  | use (p : ℕ)
  | free (p : ℕ)
  | alloc (p : ℕ)
  deriving DecidableEq

/-- A structure is used behind its `free` and not allocated again in between. -/
def UsedAfterFree (log : List Access) : Prop :=
  ∃ xs p ys zs, log = xs ++ .free p :: (ys ++ .use p :: zs) ∧ .alloc p ∉ ys

section Accesses
variable (k : Kernel)

def queueUses : List Access := (k.nodes k.readyQueue).map .use

/-- A loop over `xs` that stops at the first node with `P`. -/
def searchUses (xs : List ℕ) (P : ℕ → Bool) : List Access :=
  (xs.takeWhile (fun x => !P x) ++ (xs.find? P).toList).map .use

/-- `process_unload` and `process_reload`. -/
def savedUses : List Access := if k.roundRobin then [.use k.currentProcess] else []

/-- `process_switch`. -/
def switchUses (p : ℕ) : List Access :=
  if k.currentProcess ≠ p then [.use p, .use k.currentProcess, .use p] else []

/-- `process_idle`. -/
def idleUses : List Access := switchUses k k.kernelIdleProcess

/-- `process_do_round_robin`. -/
def doRoundRobinUses (p : ℕ) : List Access :=
  .use p :: ((if k.currentProcess ≠ k.kernelIdleProcess then savedUses k else []) ++ switchUses k p)

/-- `process_round_robin`. -/
def roundRobinUses : List Access :=
  if k.roundRobin then
    let queued := decide (k.currentProcess ≠ 0 ∧ k.currentProcess ≠ k.kernelIdleProcess)
    let behind := if queued then k.nodes (k.procs k.currentProcess).next else []
    let before := (k.nodes k.readyQueue).takeWhile (· ≠ k.currentProcess)
    (if queued then [.use k.currentProcess] else []) ++ searchUses behind (canRun k) ++
      (behind.find? (canRun k)).elim
        (searchUses before (canRun k) ++
          (before.find? (canRun k)).elim [.use k.currentProcess] (doRoundRobinUses k))
        (doRoundRobinUses k)
  else []

/-- `process_by_pid`. -/
def byPidUses (pid : ℕ) : List Access :=
  searchUses (k.nodes k.readyQueue) fun node => (k.procs node).pid = pid

/-- `process_destroy`: its own fields, the loop over the children, the removal from the queue
and the `free`. -/
def destroyAccesses (p : ℕ) : List Access :=
  if p = k.kernelIdleProcess then []
  else .use p :: ((k.nodes k.readyQueue).flatMap (fun node =>
      .use node :: if (k.procs node).parent = p then [.use p] else []) ++
    searchUses (k.nodes k.readyQueue) (fun node => node = p) ++ [.free p])

/-- `process_fork` and the write to the frame of the child; the first use of a structure that
`calloc` did not give is a write through a null pointer. -/
def forkAccesses (p : ℕ) : List Access :=
  (processFork k p).elim [] fun c =>
    if c.1 = 0 then .use p :: .use 0 :: queueUses k
    else .use p :: .alloc c.1 :: .use c.1 :: (queueUses k ++ [.use c.1, .use p, .use c.1])

/-- `syscall_exit`. -/
def exitAccesses (exitCode : ℕ) : List Access :=
  let p := k.currentProcess
  let k₁ := processDestroy k p exitCode
  destroyAccesses k p ++ idleUses k₁ ++ [.use p] ++ queueUses k₁

/-- `syscall_waitpid`. -/
def waitpidUses (pid : ℕ) : List Access :=
  let p := k.currentProcess
  let target := processByPid k pid
  byPidUses k pid ++
    if target = 0 then []
    else if (k.procs target).state = .zombie then [.use target, .use p, .use target]
    else [.use target, .use p] ++ idleUses k ++ [.use p]

/-- `syscall_kill`. -/
def killAccesses (pid sig : ℕ) : List Access :=
  let p := k.currentProcess
  let target := processByPid k (killedPid k pid)
  let k₁ := processNotifyWaitpid k (killedPid k pid) (sig * 65536)
  (if pid = 0 then [.use p] else []) ++ byPidUses k (killedPid k pid) ++
    if target = 0 ∨ nsig ≤ sig ∨ sig = 0 then []
    else if sig = sigkill then
      queueUses k ++ destroyAccesses k₁ target ++
        (if target = p then idleUses (processDestroy k₁ target sigkill) else []) ++ [.use target]
    else queueUses k ++ [.use target]

/-- A call with the calling process asleep. -/
def sleepingUses : List Access :=
  let p := k.currentProcess
  idleUses k ++ [.use p, .use p] ++ [.use p, .use k.kernelIdleProcess, .use p] ++ [.use p]

/-- A call that returns at once; `syscall_getppid` reads the pid of the parent. -/
def directUses (no : ℕ) : List Access :=
  let p := k.currentProcess
  .use p :: if no = 110 ∧ (k.procs p).parent ≠ 0 then [.use (k.procs p).parent] else []

/-- `run_syscall`. -/
def callAccesses (r : Registers) : List Access :=
  if r.eax = 13 then [.use k.currentProcess]
  else if r.eax = 34 then idleUses k
  else if r.eax = 57 then forkAccesses k k.currentProcess
  else if r.eax = 60 then exitAccesses k r.ebx
  else if r.eax = 61 then waitpidUses k r.ebx
  else if r.eax = 62 then killAccesses k r.ebx r.ecx
  else if r.eax = 127 then [.use k.currentProcess]
  else if sleeps r.eax then sleepingUses k
  else if returnsAtOnce r.eax then directUses k r.eax
  else []

/-- `isr_fault_handler` in user mode; behind `process_handle_int` it prints the pid. -/
def faultAccesses (r : Registers) : List Access :=
  let p := k.currentProcess
  if r.intNo = 14 then
    let status := (word32 - r.errCode % word32) % word32
    let k₁ := processDestroy k p status
    .use p :: (destroyAccesses k p ++ .use p :: queueUses k₁ ++
      idleUses (processNotifyWaitpid k₁ (k₁.procs p).pid status))
  else destroyAccesses k p ++ idleUses (processDestroy k p 1) ++ [.use p]

end Accesses

/-- A step, between `process_unload` and `process_reload`. -/
def accesses (work : ℕ → FileWork) (k : Kernel) : SystemOp → List Access
  | .tick r switch =>
    let k₁ := processUnload k r
    savedUses k ++ (if switch then roundRobinUses k₁ else []) ++
      savedUses (if switch then (processRoundRobin k₁ r).1 else k₁)
  | .call r =>
    let k₁ := processUnload k r
    savedUses k ++ callAccesses k₁ r ++ (runSyscall work k₁ r).elim [] fun c => savedUses c.1
  | .fault r =>
    let k₁ := processUnload k r
    savedUses k ++ faultAccesses k₁ r ++ savedUses (if r.intNo = 14 then (panicHandler k₁ r).1
      else (processHandleInt k₁ r).1)

def EndsProcess (k : Kernel) : SystemOp → Prop
  | .tick _ _ => False
  | .call r => r.eax = 60 ∨ r.eax = 62 ∧ r.ecx = sigkill ∧
    processByPid (processUnload k r) (killedPid (processUnload k r) r.ebx) ≠ 0
  | .fault _ => True

/-! ### Steps that free nothing -/

def NoFree (log : List Access) : Prop := ∀ p, .free p ∉ log

section NoFree
variable {work : ℕ → FileWork} {k : Kernel} {log xs ys : List Access} {r : Registers} {p : ℕ}

@[simp] theorem noFree_nil : NoFree [] := fun _ hp => nomatch hp

@[simp] theorem noFree_append : NoFree (xs ++ ys) ↔ NoFree xs ∧ NoFree ys := by
  simp [NoFree, forall_and]

@[simp] theorem noFree_use : NoFree (.use p :: xs) ↔ NoFree xs := by simp [NoFree]

@[simp] theorem noFree_alloc : NoFree (.alloc p :: xs) ↔ NoFree xs := by simp [NoFree]

@[simp] theorem noFree_uses (ps : List ℕ) : NoFree (ps.map .use) := by simp [NoFree]

@[simp] theorem noFree_queueUses : NoFree (queueUses k) := noFree_uses _

@[simp] theorem noFree_searchUses (ps : List ℕ) (P : ℕ → Bool) : NoFree (searchUses ps P) :=
  noFree_uses _

@[simp] theorem noFree_savedUses : NoFree (savedUses k) := by
  rw [savedUses]
  split_ifs <;> simp

@[simp] theorem noFree_switchUses : NoFree (switchUses k p) := by
  rw [switchUses]
  split_ifs <;> simp

@[simp] theorem noFree_idleUses : NoFree (idleUses k) := noFree_switchUses

@[simp] theorem noFree_doRoundRobinUses : NoFree (doRoundRobinUses k p) := by
  rw [doRoundRobinUses]
  split_ifs <;> simp

theorem noFree_dite {c : Prop} [Decidable c] (hx : c → NoFree xs) (hy : ¬ c → NoFree ys) :
    NoFree (if c then xs else ys) := by
  split_ifs with h
  · exact hx h
  · exact hy h

theorem noFree_ite {c : Prop} [Decidable c] (hx : NoFree xs) (hy : NoFree ys) :
    NoFree (if c then xs else ys) :=
  noFree_dite (fun _ => hx) fun _ => hy

theorem noFree_elim {α : Type*} {o : Option α} {f : α → List Access} (hx : NoFree xs)
    (hf : ∀ a, NoFree (f a)) : NoFree (o.elim xs f) := by
  cases o with
  | none => exact hx
  | some a => exact hf a

theorem noFree_roundRobinUses (k : Kernel) : NoFree (roundRobinUses k) := by
  rw [roundRobinUses]
  refine noFree_ite (noFree_append.mpr ⟨noFree_append.mpr ⟨noFree_ite (by simp) noFree_nil,
    noFree_searchUses _ _⟩, ?_⟩) noFree_nil
  refine noFree_elim (noFree_append.mpr ⟨noFree_searchUses _ _, ?_⟩) fun _ => noFree_doRoundRobinUses
  exact noFree_elim (by simp) fun _ => noFree_doRoundRobinUses

theorem noFree_forkAccesses (k : Kernel) (p : ℕ) : NoFree (forkAccesses k p) := by
  rw [forkAccesses]
  exact noFree_elim noFree_nil fun c => noFree_ite (by simp) (by simp)

theorem noFree_waitpidUses (k : Kernel) (pid : ℕ) : NoFree (waitpidUses k pid) := by
  rw [waitpidUses, byPidUses]
  split_ifs <;> simp

theorem noFree_killAccesses {pid sig : ℕ}
    (h : ¬ (sig = sigkill ∧ processByPid k (killedPid k pid) ≠ 0)) :
    NoFree (killAccesses k pid sig) := by
  rw [killAccesses, byPidUses]
  split_ifs with h0 hbad hkill hself hbad hkill hself
  all_goals first | (exfalso; tauto) | simp

theorem noFree_directUses (k : Kernel) (no : ℕ) : NoFree (directUses k no) := by
  rw [directUses]
  split_ifs <;> simp

/-- A step that ends no process frees no structure. -/
theorem noFree_accesses {o : SystemOp} (h : ¬ EndsProcess k o) : NoFree (accesses work k o) := by
  cases o with
  | tick r switch =>
    rw [accesses]
    split_ifs
    · simp [noFree_roundRobinUses]
    · simp
  | call r =>
    have hcall : NoFree (callAccesses (processUnload k r) r) := by
      rw [EndsProcess] at h
      rw [callAccesses]
      refine noFree_ite (by simp) (noFree_ite (by simp) ?_)
      refine noFree_ite (noFree_forkAccesses _ _) ?_
      refine noFree_dite (fun h60 => absurd (.inl h60) h) fun _ => ?_
      refine noFree_ite (noFree_waitpidUses _ _) ?_
      refine noFree_dite (fun h62 => noFree_killAccesses fun hk => h (.inr ⟨h62, hk⟩)) fun _ => ?_
      refine noFree_ite (by simp) (noFree_ite (by simp [sleepingUses]) ?_)
      exact noFree_ite (noFree_directUses _ _) noFree_nil
    rw [accesses]
    exact noFree_append.mpr ⟨noFree_append.mpr ⟨noFree_savedUses, hcall⟩,
      noFree_elim noFree_nil fun c => noFree_savedUses⟩
  | fault r => exact absurd trivial h

theorem NoFree.not_usedAfterFree (h : NoFree log) : ¬ UsedAfterFree log := by
  rintro ⟨xs, p, ys, zs, rfl, -⟩
  exact h p (by simp)

end NoFree

/-! ### Steps that end a process -/

section Ends
variable {work : ℕ → FileWork} {k : Kernel} {w : WaitTable} {log xs ys zs : List Access}
  {r : Registers} {p : ℕ}

theorem UsedAfterFree.append (h : UsedAfterFree log) (xs zs : List Access) :
    UsedAfterFree (xs ++ log ++ zs) := by
  obtain ⟨as, p, bs, cs, rfl, hp⟩ := h
  exact ⟨xs ++ as, p, bs, cs ++ zs, by simp, hp⟩

/-- A structure is used behind `process_destroy`. -/
theorem usedAfterFree_destroy (k : Kernel) (xs zs : List Access) (hp : p ≠ k.kernelIdleProcess)
    (hys : .alloc p ∉ ys) :
    UsedAfterFree (xs ++ destroyAccesses k p ++ ys ++ .use p :: zs) := by
  rw [destroyAccesses, if_neg hp]
  refine ⟨xs ++ Access.use p :: ((k.nodes k.readyQueue).flatMap (fun node =>
      Access.use node :: if (k.procs node).parent = p then [Access.use p] else []) ++
    searchUses (k.nodes k.readyQueue) fun node => node = p), p, ys, zs, ?_, hys⟩
  simp

theorem alloc_not_mem_idleUses (k : Kernel) (p : ℕ) : .alloc p ∉ idleUses k := by
  rw [idleUses, switchUses]
  split_ifs <;> simp

theorem usedAfterFree_exit (hp : k.currentProcess ≠ k.kernelIdleProcess) (exitCode : ℕ) :
    UsedAfterFree (exitAccesses k exitCode) := by
  have h := usedAfterFree_destroy k [] (queueUses (processDestroy k k.currentProcess
    exitCode)) hp (alloc_not_mem_idleUses (processDestroy k k.currentProcess exitCode) _)
  simpa [exitAccesses] using h

theorem usedAfterFree_kill {pid sig : ℕ} (hsig : sig = sigkill)
    (hne : processByPid k (killedPid k pid) ≠ 0)
    (hidle : processByPid k (killedPid k pid) ≠ k.kernelIdleProcess) :
    UsedAfterFree (killAccesses k pid sig) := by
  have hvalid : ¬ (processByPid k (killedPid k pid) = 0 ∨ nsig ≤ sig ∨ sig = 0) := by
    rw [hsig]
    exact not_or.mpr ⟨hne, by decide⟩
  have hkeep : (processNotifyWaitpid k (killedPid k pid) (sig * 65536)).kernelIdleProcess =
      k.kernelIdleProcess := (congrArg Kernel.kernelIdleProcess (notify_procs k _ _ _).2 :)
  rw [killAccesses]
  rw [if_neg hvalid, if_pos hsig]
  generalize processNotifyWaitpid k (killedPid k pid) (sig * 65536) = k₁ at *
  generalize processByPid k (killedPid k pid) = target at *
  have hys : .alloc target ∉ (if target = k.currentProcess then
      idleUses (processDestroy k₁ target sigkill) else []) := by
    split_ifs
    · exact alloc_not_mem_idleUses _ _
    · exact List.not_mem_nil
  have h := usedAfterFree_destroy k₁ (queueUses k) [] (hkeep ▸ hidle) hys
  have h' := h.append ((if pid = 0 then [Access.use k.currentProcess] else []) ++
    byPidUses k (killedPid k pid)) []
  simp only [List.append_assoc, List.append_nil] at h' ⊢
  exact h'

theorem usedAfterFree_fault (hp : k.currentProcess ≠ k.kernelIdleProcess) (r : Registers) :
    UsedAfterFree (faultAccesses k r) := by
  rw [faultAccesses]
  split_ifs with hpage
  · have h := usedAfterFree_destroy k [.use k.currentProcess] [] hp List.not_mem_nil
    simpa using h.append [] _
  · have h := usedAfterFree_destroy k [] [] hp
      (alloc_not_mem_idleUses (processDestroy k k.currentProcess 1) _)
    simpa using h

/-- A step that ends a process uses its structure behind the `free`. -/
theorem usedAfterFree_accesses {o : SystemOp} {k' : Kernel} (h : Settled k w)
    (hstep : systemStep work k o = some k') (hends : EndsProcess k o) :
    UsedAfterFree (accesses work k o) := by
  cases o with
  | tick r switch => exact hends.elim
  | call r =>
    rw [systemStep] at hstep
    split_ifs at hstep with hidle
    have hcall := (h.calling hidle).unload r
    rw [accesses]
    refine UsedAfterFree.append ?_ _ _
    rw [callAccesses]
    rcases hends with h60 | ⟨h62, hsig, hne⟩
    · rw [if_neg (by omega), if_neg (by omega), if_neg (by omega), if_pos h60]
      exact usedAfterFree_exit hcall.current_ne _
    · rw [if_neg (by omega), if_neg (by omega), if_neg (by omega), if_neg (by omega),
        if_neg (by omega), if_pos h62]
      have hmem := (processByPid_mem hcall.list hcall.address hne).1
      exact usedAfterFree_kill hsig hne fun he => hcall.idle (he ▸ hmem)
  | fault r =>
    rw [systemStep] at hstep
    split_ifs at hstep with hidle
    rw [accesses]
    exact (usedAfterFree_fault ((h.calling hidle).unload r).current_ne r).append _ _

end Ends

/-! ### Runs -/

/-- The allocator keeps its promise and the step ends no process. -/
def EndsNone (s : Kernel × List Access) (o : SystemOp) : Prop :=
  ForksFresh s.1 o ∧ ¬ EndsProcess s.1 o

section Runs
variable {work : ℕ → FileWork} {k k' : Kernel} {w : WaitTable} {log : List Access}
  {s t : Kernel × List Access} {os : List SystemOp}

theorem exists_log_append (h : Run (logged (systemStep work) (accesses work))
    (fun s o => ForksFresh s.1 o) s os t) : ∃ es, t.2 = s.2 ++ es := by
  induction h with
  | nil s => exact ⟨[], (List.append_nil _).symm⟩
  | @cons s s' t o os hc hs ht ih =>
    obtain ⟨k₁, -, rfl⟩ := Option.map_eq_some_iff.mp hs
    obtain ⟨es, he⟩ := ih
    exact ⟨accesses work s.1 o ++ es, by rw [he, List.append_assoc]⟩

theorem endsNone_of_not_usedAfterFree (h : Run (logged (systemStep work) (accesses work))
    (fun s o => ForksFresh s.1 o) s os t) (hs : Settled s.1 w) (hno : ¬ UsedAfterFree t.2) :
    Run (logged (systemStep work) (accesses work)) EndsNone s os t := by
  induction h generalizing w with
  | nil s => exact .nil s
  | @cons s s' t o os hc hstep ht ih =>
    obtain ⟨k₁, hk₁, rfl⟩ := Option.map_eq_some_iff.mp hstep
    refine .cons ⟨hc, fun hends => hno ?_⟩ hstep (ih (hs.step hc hk₁) hno)
    obtain ⟨es, he⟩ := exists_log_append ht
    rw [he]
    exact (usedAfterFree_accesses hs hk₁ hends).append _ _

theorem noFree_of_endsNone (h : Run (logged (systemStep work) (accesses work)) EndsNone s os t)
    (hs : NoFree s.2) : NoFree t.2 := by
  refine h.invariant (I := fun s => NoFree s.2) ?_ hs
  rintro s o t hs hc hstep
  obtain ⟨k₁, -, rfl⟩ := Option.map_eq_some_iff.mp hstep
  exact noFree_append.mpr ⟨hs, noFree_accesses hc.2⟩

/-- A run of interrupts, system calls and faults uses no process structure behind its `free`
if and only if it ends no process. -/
theorem not_usedAfterFree_iff (hk : Settled k w)
    (hrun : Run (logged (systemStep work) (accesses work)) (fun s o => ForksFresh s.1 o)
      (k, []) os (k', log)) :
    ¬ UsedAfterFree log ↔
      Run (logged (systemStep work) (accesses work)) EndsNone (k, []) os (k', log) :=
  ⟨endsNone_of_not_usedAfterFree hrun hk,
    fun h => (noFree_of_endsNone h noFree_nil).not_usedAfterFree⟩

end Runs

theorem not_usedAfterFree_of_getpid : ∃ s,
    Run (logged (systemStep fun _ => getpidWork) (accesses fun _ => getpidWork))
      (fun s o => ForksFresh s.1 o) (callingProcess, []) [.call (callWith 39 0 0)]
      (s, [.use 16, .use 16, .use 16]) ∧ ¬ UsedAfterFree [.use 16, .use 16, .use 16] := by
  have hlog : accesses (fun _ => getpidWork) callingProcess (.call (callWith 39 0 0)) =
      [.use 16, .use 16, .use 16] := by decide +kernel
  obtain ⟨s, hs⟩ : ∃ s, systemStep (fun _ => getpidWork) callingProcess (.call (callWith 39 0 0)) =
    some s := ⟨_, rfl⟩
  have hstep : logged (systemStep fun _ => getpidWork) (accesses fun _ => getpidWork)
      (callingProcess, []) (.call (callWith 39 0 0)) = some (s, [.use 16, .use 16, .use 16]) := by
    rw [logged, hs, hlog]
    rfl
  have hfresh := callWith_fresh 39 (by decide) 0 0 callingProcess
  have hends : ¬ EndsProcess callingProcess (.call (callWith 39 0 0)) := by
    rintro (h | ⟨h, -⟩)
    · exact absurd h (by decide)
    · exact absurd h (by decide)
  have hrun : Run (logged (systemStep fun _ => getpidWork) (accesses fun _ => getpidWork))
      (fun s o => ForksFresh s.1 o) (callingProcess, []) [.call (callWith 39 0 0)]
      (s, [.use 16, .use 16, .use 16]) := .single hfresh hstep
  exact ⟨s, hrun, (not_usedAfterFree_iff callingProcess_settled hrun).mpr
    (.single ⟨hfresh, hends⟩ hstep)⟩

theorem usedAfterFree_of_exit : ∃ s log, Settled callingProcess callingTable ∧
    Run (logged (systemStep fun _ => getpidWork) (accesses fun _ => getpidWork))
      (fun s o => ForksFresh s.1 o) (callingProcess, []) [.call (callWith 60 7 0)] (s, log) ∧
    UsedAfterFree log := by
  obtain ⟨s, hs⟩ : ∃ s, systemStep (fun _ => getpidWork) callingProcess (.call (callWith 60 7 0)) =
    some s := ⟨_, systemStep_call callingProcess_calling.current_ne rfl⟩
  have hstep : logged (systemStep fun _ => getpidWork) (accesses fun _ => getpidWork)
      (callingProcess, []) (.call (callWith 60 7 0)) =
      some (s, accesses (fun _ => getpidWork) callingProcess (.call (callWith 60 7 0))) := by
    rw [logged, hs]
    rfl
  exact ⟨_, _, callingProcess_settled, .single (callWith_fresh 60 (by decide) 7 0 _) hstep,
    usedAfterFree_accesses callingProcess_settled hs (.inl rfl)⟩

end DosKernel
