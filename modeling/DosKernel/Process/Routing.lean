import DosKernel.Process.Syscalls

/-! Where the result of a system call goes. The stub puts it into the `eax` of whatever
frame is live at the end, which is that of the caller only if the call did not leave
another process running. -/

namespace DosKernel

open Lib

/-- The registers of a process: the live ones if it is the current one, else those saved
for it. -/
def frameOf (k : Kernel) (r : Registers) (q : ℕ) : Registers :=
  if k.currentProcess = q then r else (k.procs q).r

/-- The result `v` is in the `eax` of `p`, and every other process has the frame that
`saved` has for it. -/
structure Routed (p v : ℕ) (saved k : Kernel) (r : Registers) : Prop where
  result : (frameOf k r p).eax = v
  others : ∀ q, q ≠ p → frameOf k r q = (saved.procs q).r

/-- The call does not leave its process: it is not `pause` or `exit`, not a `waitpid` for a
process that is there and has not exited, and not a `SIGKILL` to itself. -/
def StaysInCaller (k : Kernel) (r : Registers) : Prop :=
  r.eax ≠ 34 ∧ r.eax ≠ 60 ∧
  (r.eax = 61 → processByPid k r.ebx = 0 ∨ (k.procs (processByPid k r.ebx)).state = .zombie) ∧
  (r.eax = 62 → r.ecx = sigkill → processByPid k (killedPid k r.ebx) = 0 ∨
    processByPid k (killedPid k r.ebx) ≠ k.currentProcess)

/-- The calling process is in the queue and the idle process is not. -/
structure Calling (k : Kernel) (xs : List ℕ) : Prop where
  roundRobin : k.roundRobin = true
  list : IsList k.next k.readyQueue xs
  address : ∀ q ∈ xs, q < word32
  current : k.currentProcess ∈ xs
  idle : k.kernelIdleProcess ∉ xs

section Ends
variable {k : Kernel} {r : Registers} {p v : ℕ}

theorem processReload_current (k : Kernel) (r : Registers) :
    (processReload k r).1.currentProcess = k.currentProcess := by
  rw [processReload]
  dsimp only
  split_ifs
  · rfl
  · rw [mmuLoadPdt_eq]
    rfl
  · rfl

/-- The caller is still the current process at the end. -/
theorem routed_of_current (hcur : k.currentProcess = p) :
    Routed p v k (processReload k r).1 { (processReload k r).2 with eax := v } := by
  have hcur' := (processReload_current k r).trans hcur
  have hframe : ∀ q, ((processReload k r).1.procs q).r = (k.procs q).r := by
    intro q
    rw [processReload]
    dsimp only
    split_ifs
    · rfl
    · rw [mmuLoadPdt_eq]
      dsimp only
      by_cases hq : q = k.currentProcess
      · rw [hq, Kernel.setProc_self]
      · rw [Kernel.setProc_of_ne k _ hq]
    · rfl
  refine ⟨?_, fun q hq => ?_⟩
  · rw [frameOf, if_pos hcur']
  · rw [frameOf, if_neg fun h => hq (h.symm.trans hcur'), hframe]

/-- Another process `i` is running at the end, with its own frame. -/
theorem routed_iff_of_other {i : ℕ} (hi : i ≠ p) (hcur : k.currentProcess = i)
    (hrun : (k.procs i).state = .running) (hr : r = (k.procs i).r) :
    Routed p v k (processReload k r).1 { (processReload k r).2 with eax := v } ↔
      (k.procs i).r.eax = v ∧ (k.procs p).r.eax = v := by
  rw [processReload_running (by rw [hcur]; exact hrun)]
  constructor
  · rintro ⟨hresult, hothers⟩
    have hlive := hothers i hi
    rw [frameOf, if_pos hcur, hr] at hlive
    rw [frameOf, if_neg (by rw [hcur]; exact hi)] at hresult
    exact ⟨(congrArg Registers.eax hlive).symm, hresult⟩
  · rintro ⟨hlive, hresult⟩
    refine ⟨?_, fun q hq => ?_⟩
    · rw [frameOf, if_neg (by rw [hcur]; exact hi)]
      exact hresult
    · rw [frameOf]
      split_ifs with hqi
      · rw [← hqi, hcur, hr, ← hlive]
      · rfl

end Ends

section Calls
variable {k : Kernel} {r : Registers} {xs : List ℕ} {work : ℕ → FileWork}

theorem Calling.unload (h : Calling k xs) (r : Registers) : Calling (processUnload k r) xs := by
  obtain ⟨htable, hcurrent, -, -⟩ := processUnload_spec (r := r) h.roundRobin
  refine ⟨htable.roundRobin.trans h.roundRobin, ?_, h.address, ?_, ?_⟩
  · rw [htable.next_eq, htable.readyQueue]
    exact h.list
  · rw [hcurrent]
    exact h.current
  · rw [htable.idle]
    exact h.idle

theorem Calling.current_ne (h : Calling k xs) : k.currentProcess ≠ k.kernelIdleProcess :=
  fun he => h.idle (he ▸ h.current)

/-- `process_by_pid` finds a process of the queue, with that pid. -/
theorem processByPid_mem (hlist : IsList k.next k.readyQueue xs) (haddr : ∀ q ∈ xs, q < word32)
    {pid : ℕ} (hne : processByPid k pid ≠ 0) :
    processByPid k pid ∈ xs ∧ (k.procs (processByPid k pid)).pid = pid := by
  rw [processByPid, nodes_eq_of_isList hlist haddr] at hne ⊢
  cases hfind : xs.find? fun node => decide ((k.procs node).pid = pid) with
  | none =>
    rw [hfind] at hne
    exact absurd rfl hne
  | some q =>
    rw [Option.getD_some]
    exact ⟨List.mem_of_find?_eq_some hfind, by simpa using List.find?_some hfind⟩

theorem processFork_current {c : ℕ × Kernel} {p : ℕ} (h : processFork k p = some c) :
    c.2.currentProcess = k.currentProcess := by
  obtain ⟨⟨a, k₁⟩, ha, rfl⟩ := Option.map_eq_some_iff.mp h
  have hk : k₁.currentProcess = k.currentProcess :=
    (congrArg Kernel.currentProcess (processAllocate_frame ha) :)
  have hcreate : ∀ e st pdt, (processCreateAt k₁ a e st pdt false).currentProcess =
      k₁.currentProcess := by
    intro e st pdt
    rw [processCreateAt, processAddReadyQueue]
    split_ifs
    · rfl
    · cases (Kernel.nodes _ _).getLast? <;> rfl
  dsimp only
  rw [processForkAt]
  split_ifs
  · exact (hcreate _ _ _).trans hk
  · exact (hcreate _ _ _).trans hk

/-- The state after `process_destroy` of a process of the queue and a switch to the idle
process: the frames are those before. -/
theorem destroy_idle (h : Calling k xs) {p : ℕ} (hp : p ∈ xs) (exitCode : ℕ)
    (hcur : k.currentProcess = p) :
    SwitchedTo (processDestroy k p exitCode) (processIdle (processDestroy k p exitCode) r).1
      (processIdle (processDestroy k p exitCode) r).2 k.kernelIdleProcess ∧
    (processDestroy k p exitCode).kernelIdleProcess = k.kernelIdleProcess ∧
    (∀ q, ((processDestroy k p exitCode).procs q).r = (k.procs q).r) ∧
    ∃ ys, IsList (processDestroy k p exitCode).next (processDestroy k p exitCode).readyQueue ys ∧
      (∀ q ∈ ys, q ∈ xs) ∧ p ∉ ys := by
  obtain ⟨ys, zs, rfl⟩ := List.append_of_mem hp
  have hpi : p ≠ k.kernelIdleProcess := fun he => h.idle (he ▸ hp)
  have hd := processDestroy_spec h.list h.address hpi exitCode
  have hnodup := h.list.nodup
  generalize processDestroy k p exitCode = k₁ at *
  have hidle : k₁.kernelIdleProcess = k.kernelIdleProcess :=
    (congrArg Kernel.kernelIdleProcess hd.rest :)
  have hcur₁ : k₁.currentProcess = p := ((congrArg Kernel.currentProcess hd.rest :)).trans hcur
  refine ⟨?_, hidle, fun q => ?_, ys ++ zs, hd.list, fun q hq => (mem_of_mem_rest hnodup hq).1,
    not_mem_rest hnodup⟩
  · rw [← hidle] at hpi ⊢
    exact processSwitch_switched (hcur₁ ▸ hpi)
  · exact hd.field_eq Process.r (fun _ _ _ _ _ => rfl) q

/-- A call of `p` has ended with the idle process running: it has its own frame, the
`eax` it had in `k`, and the frame saved for `p` has `eax` in that register. -/
structure LeftToIdle (k : Kernel) (c : Kernel × Registers × ℕ) (p eax : ℕ) : Prop where
  same_idle : c.1.kernelIdleProcess = k.kernelIdleProcess
  current : c.1.currentProcess = k.kernelIdleProcess
  running : (c.1.procs k.kernelIdleProcess).state = .running
  frame : c.2.1 = (c.1.procs k.kernelIdleProcess).r
  idle : (c.1.procs k.kernelIdleProcess).r.eax = (k.procs k.kernelIdleProcess).r.eax
  caller : (c.1.procs p).r.eax = eax

theorem LeftToIdle.routed_iff {c : Kernel × Registers × ℕ} {p eax : ℕ} (h : LeftToIdle k c p eax)
    (hp : k.kernelIdleProcess ≠ p) :
    Routed p c.2.2 c.1 (processReload c.1 c.2.1).1 { (processReload c.1 c.2.1).2 with eax := c.2.2 } ↔
      (k.procs k.kernelIdleProcess).r.eax = c.2.2 ∧ eax = c.2.2 := by
  rw [routed_iff_of_other hp h.current h.running h.frame, h.idle, h.caller]

theorem syscallPause_left (h : Calling k xs) :
    LeftToIdle k (syscallPause k r) k.currentProcess (k.procs k.currentProcess).r.eax := by
  have hsw := processSwitch_switched (r := r) h.current_ne
  rw [syscallPause, processIdle]
  exact ⟨hsw.same.idle, hsw.current, hsw.running, hsw.frame, hsw.eax,
    congrArg Registers.eax (hsw.other _ h.current_ne)⟩

theorem syscallWaitpid_left (h : Calling k xs) {pid status : ℕ} (ht : processByPid k pid ≠ 0)
    (hz : (k.procs (processByPid k pid)).state ≠ .zombie) :
    LeftToIdle k (syscallWaitpid pid status k r) k.currentProcess
      (k.procs k.currentProcess).r.eax := by
  have hne := h.current_ne
  rw [syscallWaitpid, if_neg ht, if_neg hz]
  generalize hk₁ : k.setProc k.currentProcess ({ · with waitpid := pid }) = k₁
  have hidle : k₁.kernelIdleProcess = k.kernelIdleProcess := by rw [← hk₁, Kernel.setProc]
  have hcur : k₁.currentProcess = k.currentProcess := by rw [← hk₁, Kernel.setProc]
  have hframe : ∀ q, (k₁.procs q).r = (k.procs q).r := by
    intro q
    rw [← hk₁]
    by_cases hq : q = k.currentProcess
    · rw [hq, Kernel.setProc_self]
    · rw [Kernel.setProc_of_ne k _ hq]
  have hsw := processSwitch_switched (k := k₁) (r := r) (p := k.kernelIdleProcess) (hcur ▸ hne)
  rw [processIdle, hidle]
  generalize processSwitch k₁ k.kernelIdleProcess r = kr at hsw
  refine ⟨hsw.same.idle.trans hidle, hsw.current, ?_, ?_, ?_, ?_⟩
  · dsimp only
    rw [Kernel.setProc_of_ne _ _ hne.symm]
    exact hsw.running
  · dsimp only
    rw [Kernel.setProc_of_ne _ _ hne.symm]
    exact hsw.frame
  · dsimp only
    rw [Kernel.setProc_of_ne _ _ hne.symm, hsw.eax, hframe]
  · dsimp only
    rw [Kernel.setProc_self, Process.suspend, hsw.other _ hne, hframe]

/-- `process_destroy` of the caller, `process_idle`, and a notification. -/
theorem destroyed_left (h : Calling k xs) (exitCode pid status v : ℕ) :
    LeftToIdle k (processNotifyWaitpid
        (processIdle (processDestroy k k.currentProcess exitCode) r).1 pid status,
      (processIdle (processDestroy k k.currentProcess exitCode) r).2, v) k.currentProcess
      (k.procs k.currentProcess).r.eax := by
  obtain ⟨hsw, hkeep, hframe, ys, hlist, hsub, hgone⟩ :=
    destroy_idle (r := r) h h.current exitCode rfl
  generalize processDestroy k k.currentProcess exitCode = k₁ at *
  have hlist₂ : IsList (processIdle k₁ r).1.next (processIdle k₁ r).1.readyQueue ys := by
    rw [hsw.same.next_eq, hsw.same.readyQueue]
    exact hlist
  generalize processIdle k₁ r = kr at *
  obtain ⟨hprocs, hrest⟩ := notify_procs kr.1 pid status ys
  rw [processNotifyWaitpid, nodes_eq_of_isList hlist₂ fun q hq => h.address q (hsub q hq)]
  have hself : ∀ q, q ∉ ys → (ys.foldl (notifyNode pid status) kr.1).procs q = kr.1.procs q := by
    intro q hq
    rw [hprocs, if_neg fun hc => hq hc.1]
  have hidle : k.kernelIdleProcess ∉ ys := fun hm => h.idle (hsub _ hm)
  refine ⟨((congrArg Kernel.kernelIdleProcess hrest :).trans hsw.same.idle).trans hkeep,
    (congrArg Kernel.currentProcess hrest :).trans hsw.current, ?_, ?_, ?_, ?_⟩
  · rw [hself _ hidle]
    exact hsw.running
  · rw [hself _ hidle]
    exact hsw.frame
  · rw [hself _ hidle, hsw.eax, hframe]
  · rw [hself _ hgone, hsw.other _ h.current_ne, hframe]

theorem killTarget_left (h : Calling k xs) {pid status : ℕ} {c : Kernel × Registers × ℕ}
    (hc : killTarget k.currentProcess (processNotifyWaitpid k pid status) r = some c) :
    c.2.2 = 0 ∧ ∃ eax, LeftToIdle k c k.currentProcess eax ∧
      (eax = (k.procs k.currentProcess).r.eax ∨ eax = pid) := by
  obtain ⟨hprocs, hrest⟩ := notify_procs k pid status xs
  rw [processNotifyWaitpid, nodes_eq_of_isList h.list h.address] at hc
  generalize xs.foldl (notifyNode pid status) k = k₁ at *
  have hcur : k₁.currentProcess = k.currentProcess := (congrArg Kernel.currentProcess hrest :)
  have hidle : k₁.kernelIdleProcess = k.kernelIdleProcess :=
    (congrArg Kernel.kernelIdleProcess hrest :)
  have hnext : k₁.next = k.next := by
    funext q
    rw [Kernel.next, hprocs, Kernel.next]
    split_ifs <;> rfl
  have h₁ : Calling k₁ xs := by
    refine ⟨(congrArg Kernel.roundRobin hrest :).trans h.roundRobin, ?_, h.address, ?_, ?_⟩
    · rw [hnext, (congrArg Kernel.readyQueue hrest :)]
      exact h.list
    · rw [hcur]
      exact h.current
    · rw [hidle]
      exact h.idle
  obtain ⟨hsw, hkeep, hframe, -⟩ := destroy_idle (r := r) h₁ h₁.current sigkill rfl
  rw [killTarget, hcur, if_pos rfl] at hc
  rw [hcur] at hsw hkeep hframe
  split_ifs at hc with hinit
  obtain rfl := Option.some.inj hc
  have heax : (k₁.procs k.currentProcess).r.eax = (k.procs k.currentProcess).r.eax ∨
      (k₁.procs k.currentProcess).r.eax = pid := by
    rw [hprocs]
    split_ifs
    · exact .inr rfl
    · exact .inl rfl
  refine ⟨rfl, _, ⟨?_, ?_, ?_, ?_, ?_, rfl⟩, ?_⟩
  · exact (hsw.same.idle.trans hkeep).trans hidle
  · rw [← hidle]
    exact hsw.current
  · rw [← hidle]
    exact hsw.running
  · rw [← hidle]
    exact hsw.frame
  · rw [← hidle, hsw.eax, hframe, hprocs, hidle, if_neg fun hm => h.idle hm.1]
  · dsimp only
    rw [hsw.other _ (hidle ▸ h.current_ne), hframe]
    exact heax

/-- `process_notify_waitpid` and `process_destroy` do not switch. -/
theorem notify_destroy_current (h : Calling k xs) {p : ℕ} (hp : p ∈ xs)
    (pid status exitCode : ℕ) :
    (processDestroy (processNotifyWaitpid k pid status) p exitCode).currentProcess =
      k.currentProcess := by
  obtain ⟨hprocs, hrest⟩ := notify_procs k pid status xs
  rw [processNotifyWaitpid, nodes_eq_of_isList h.list h.address]
  generalize xs.foldl (notifyNode pid status) k = k₁ at *
  have hnext : k₁.next = k.next := by
    funext q
    rw [Kernel.next, hprocs, Kernel.next]
    split_ifs <;> rfl
  have hlist : IsList k₁.next k₁.readyQueue xs := by
    rw [hnext, (congrArg Kernel.readyQueue hrest :)]
    exact h.list
  have hpi : p ≠ k₁.kernelIdleProcess := by
    rw [(congrArg Kernel.kernelIdleProcess hrest :)]
    exact fun he => h.idle (he ▸ hp)
  obtain ⟨ys, zs, rfl⟩ := List.append_of_mem hp
  have hd := processDestroy_spec hlist h.address hpi exitCode
  exact ((congrArg Kernel.currentProcess hd.rest :)).trans (congrArg Kernel.currentProcess hrest :)

/-- A `kill` that does not end its caller does not switch. -/
theorem syscallKill_current (h : Calling k xs) {pid sig : ℕ} {c : Kernel × Registers × ℕ}
    (hself : sig = sigkill → processByPid k (killedPid k pid) = 0 ∨
      processByPid k (killedPid k pid) ≠ k.currentProcess)
    (hc : syscallKill pid sig k r = some c) : c.1.currentProcess = k.currentProcess := by
  have hnotify : ∀ status, (processNotifyWaitpid k (killedPid k pid) status).currentProcess =
      k.currentProcess := by
    intro status
    rw [processNotifyWaitpid]
    exact (congrArg Kernel.currentProcess (notify_procs k _ status _).2 :)
  rw [syscallKill] at hc
  dsimp only at hc
  split_ifs at hc with hnone hbad hzero hkill hbusy
  · obtain rfl := Option.some.inj hc
    rfl
  · obtain rfl := Option.some.inj hc
    rfl
  · obtain rfl := Option.some.inj hc
    rfl
  · have hmem := (processByPid_mem h.list h.address hnone).1
    have hne := (hself hkill).resolve_left hnone
    rw [killTarget] at hc
    rw [hnotify, if_neg hne] at hc
    split_ifs at hc
    obtain rfl := Option.some.inj hc
    exact notify_destroy_current h hmem _ _ _
  · obtain rfl := Option.some.inj hc
    exact hnotify _
  · obtain rfl := Option.some.inj hc
    exact hnotify _

/-- A call that does not leave its process ends with it as the current one. -/
theorem runSyscall_current (h : Calling k xs) (hs : StaysInCaller k r)
    {c : Kernel × Registers × ℕ} (hc : runSyscall work k r = some c) :
    c.1.currentProcess = k.currentProcess := by
  obtain ⟨hpause, hexit, hwait, hkill⟩ := hs
  cases runSyscall_called hc with
  | signal no =>
    rw [syscallSignal]
    split_ifs <;> rfl
  | pause no => exact absurd no hpause
  | fork no hc =>
    obtain ⟨c', hfork, rfl⟩ := Option.map_eq_some_iff.mp hc
    have hcur := processFork_current hfork
    dsimp only
    split_ifs
    · exact hcur
    · exact hcur
  | exit no => exact absurd no hexit
  | waitpid no =>
    rw [syscallWaitpid]
    dsimp only
    rcases hwait no with hnone | hzombie
    · rw [if_pos hnone]
    · split_ifs
      · rfl
      · rfl
  | kill no hc => exact syscallKill_current h (hkill no) hc
  | sleeping no hsleeps => exact processSwitch_current _ _ _
  | direct no hsleeps =>
    obtain ⟨mmu, heap, files, fr, pdt, cwd, e⟩ := (work r.eax).frame r k k.currentProcess
    rw [directCall]
    dsimp only
    rw [e]
    rfl
  | unknown no hsleeps => rfl

/-- The other calls end in the idle process, and the result is right only by chance: the
number of the call and the `eax` of the idle process would have to be equal to it. -/
theorem runSyscall_left (h : Calling k xs) (hr : (k.procs k.currentProcess).r = r)
    (hs : ¬ StaysInCaller k r) {c : Kernel × Registers × ℕ} (hc : runSyscall work k r = some c) :
    ∃ eax, LeftToIdle k c k.currentProcess eax ∧ (0 < (k.procs k.currentProcess).pid →
      (eax = c.2.2 ↔ r.eax = 60 ∧ r.ebx = 60)) ∧ (r.eax = 60 → c.2.2 = r.ebx) := by
  rw [StaysInCaller] at hs
  rw [runSyscall] at hc
  by_cases h34 : r.eax = 34
  · rw [if_neg (by omega), if_pos h34] at hc
    obtain rfl := Option.some.inj hc
    refine ⟨_, syscallPause_left h, fun _ => ?_, fun h60 => by omega⟩
    rw [hr, h34]
    simp [syscallPause, word32]
  by_cases h60 : r.eax = 60
  · rw [if_neg (by omega), if_neg h34, if_neg (by omega), if_pos h60] at hc
    obtain rfl := Option.some.inj hc
    refine ⟨_, destroyed_left h _ _ _ _, fun _ => ?_, fun _ => rfl⟩
    rw [hr]
    exact ⟨fun he => ⟨h60, he.symm.trans h60⟩, fun he => h60.trans he.2.symm⟩
  by_cases h61 : r.eax = 61
  · rw [if_neg (by omega), if_neg h34, if_neg (by omega), if_neg h60, if_pos h61] at hc
    obtain rfl := Option.some.inj hc
    have hblock : processByPid k r.ebx ≠ 0 ∧ (k.procs (processByPid k r.ebx)).state ≠ .zombie := by
      refine not_or.mp fun hb => hs ⟨h34, h60, fun _ => hb, fun h62 => ?_⟩
      omega
    refine ⟨_, syscallWaitpid_left h hblock.1 hblock.2, fun _ => ?_, fun h => absurd h h60⟩
    rw [hr, h61, syscallWaitpid, if_neg hblock.1, if_neg hblock.2]
    simp
  have hself : r.eax = 62 ∧ r.ecx = sigkill ∧ processByPid k (killedPid k r.ebx) ≠ 0 ∧
      processByPid k (killedPid k r.ebx) = k.currentProcess := by
    by_contra hcon
    refine hs ⟨h34, h60, fun h => absurd h h61, fun h62 hkill => ?_⟩
    by_contra hboth
    obtain ⟨hne, heq⟩ := not_or.mp hboth
    exact hcon ⟨h62, hkill, hne, not_not.mp heq⟩
  obtain ⟨h62, hkill, hne, hcur⟩ := hself
  rw [if_neg (by omega), if_neg h34, if_neg (by omega), if_neg h60, if_neg h61, if_pos h62,
    syscallKill] at hc
  dsimp only at hc
  rw [if_neg hne, hkill, if_neg (by decide), if_neg (by decide), if_pos rfl, hcur] at hc
  obtain ⟨hv, eax, hleft, heax⟩ := killTarget_left h hc
  refine ⟨eax, hleft, fun hpos => ?_, fun h => absurd h h60⟩
  have hpid : 0 < killedPid k r.ebx := by
    rw [← (processByPid_mem h.list h.address hne).2, hcur]
    exact hpos
  rw [hr] at heax
  rw [hv]
  constructor
  · rintro rfl
    rcases heax with heax | heax
    · omega
    · omega
  · rintro ⟨he, -⟩
    exact absurd he h60

/-- The result of a system call goes into the `eax` of its process, and every other process
keeps its frame, if and only if the call does not leave its process. The exception is
`exit(60)`: 60 is the number of the call, and so what the caller has in `eax`, and nothing
is lost if the idle process happens to have it there too. -/
theorem result_routed_iff (h : Calling k xs) (hpid : 0 < (k.procs k.currentProcess).pid)
    {c : Kernel × Registers × ℕ} {k' : Kernel} {r' : Registers}
    (hc : runSyscall work (processUnload k r) r = some c)
    (hend : syscallHandler work k r = some (k', r')) :
    Routed k.currentProcess c.2.2 c.1 k' r' ↔
      StaysInCaller (processUnload k r) r ∨
        r.eax = 60 ∧ r.ebx = 60 ∧ (k.procs k.kernelIdleProcess).r.eax = 60 := by
  have hcall := h.unload r
  obtain ⟨htable, hcurrent, hframe, -⟩ := processUnload_spec (r := r) h.roundRobin
  rw [syscallHandler, hc, Option.map_some, Option.some.injEq, Prod.mk.injEq] at hend
  obtain ⟨rfl, rfl⟩ := hend
  by_cases hs : StaysInCaller (processUnload k r) r
  · have hcur := (runSyscall_current hcall hs hc).trans hcurrent
    exact ⟨fun _ => .inl hs, fun _ => routed_of_current hcur⟩
  · have hsaved : ((processUnload k r).procs (processUnload k r).currentProcess).r = r := by
      rw [hcurrent, hframe, if_pos rfl]
    have hidle : ((processUnload k r).procs (processUnload k r).kernelIdleProcess).r =
        (k.procs k.kernelIdleProcess).r := by
      rw [htable.idle, hframe, if_neg h.current_ne.symm]
    have hpos : 0 < ((processUnload k r).procs (processUnload k r).currentProcess).pid := by
      rw [hcurrent, htable.field_eq Process.pid fun _ _ _ _ => rfl]
      exact hpid
    obtain ⟨eax, hleft, heax, hvalue⟩ := runSyscall_left hcall hsaved hs hc
    have hiff := hleft.routed_iff hcall.current_ne.symm
    rw [hidle, hcurrent, heax hpos] at hiff
    refine hiff.trans ⟨?_, ?_⟩
    · rintro ⟨hi, h60, hebx⟩
      exact .inr ⟨h60, hebx, hi.trans ((hvalue h60).trans hebx)⟩
    · rintro (hstays | ⟨h60, hebx, hi⟩)
      · exact absurd hstays hs
      · exact ⟨hi.trans (hebx.symm.trans (hvalue h60).symm), h60, hebx⟩

end Calls

/-- `syscall_getpid` in the place of every call. -/
def getpidWork : FileWork where
  run _ k p := (k, (k.procs p).pid)
  frame _ k p := ⟨k.mmu, k.heap, k.files, (k.procs p).r, (k.procs p).pdt, (k.procs p).cwd, by
    rw [Kernel.setProc, Function.update_eq_self]⟩

/-- The process at 16 makes system calls. -/
def callingProcess : Kernel := { twoProcesses with currentProcess := 16 }

theorem callingProcess_calling : Calling callingProcess [16, 32] where
  roundRobin := rfl
  list := ⟨rfl, by decide, rfl, by decide, rfl⟩
  address := by decide
  current := by decide
  idle := by decide

def callFrame (no : ℕ) : Registers := { Registers.zero with eax := no }

theorem result_routed_of_getpid : ∃ c k' r',
    runSyscall (fun _ => getpidWork) (processUnload callingProcess (callFrame 39)) (callFrame 39) =
      some c ∧
    syscallHandler (fun _ => getpidWork) callingProcess (callFrame 39) = some (k', r') ∧
    c.2.2 = 1 ∧ Routed 16 c.2.2 c.1 k' r' := by
  have hc : runSyscall (fun _ => getpidWork) (processUnload callingProcess (callFrame 39))
      (callFrame 39) = some (processUnload callingProcess (callFrame 39), callFrame 39, 1) := rfl
  obtain ⟨kr, hend⟩ : ∃ kr,
    syscallHandler (fun _ => getpidWork) callingProcess (callFrame 39) = some kr := ⟨_, rfl⟩
  refine ⟨_, kr.1, kr.2, hc, hend, rfl, ?_⟩
  refine (result_routed_iff callingProcess_calling (by decide) hc hend).mpr (.inl ?_)
  exact ⟨by decide, by decide, fun h => absurd h (by decide), fun h => absurd h (by decide)⟩

/-- The -1 of `pause` goes into the `eax` of the idle process. -/
theorem result_lost_of_pause : ∃ c k' r', Calling callingProcess [16, 32] ∧
    runSyscall (fun _ => getpidWork) (processUnload callingProcess (callFrame 34)) (callFrame 34) =
      some c ∧
    syscallHandler (fun _ => getpidWork) callingProcess (callFrame 34) = some (k', r') ∧
    k'.currentProcess = 8 ∧ r'.eax = word32 - 1 ∧ (c.1.procs 8).r.eax = 0 ∧
    ¬ Routed 16 c.2.2 c.1 k' r' := by
  refine ⟨_, _, _, callingProcess_calling, rfl, rfl, by decide +kernel, by decide +kernel,
    by decide +kernel, fun h => ?_⟩
  have hidle := congrArg Registers.eax (h.others 8 (by decide))
  revert hidle
  decide +kernel

end DosKernel
