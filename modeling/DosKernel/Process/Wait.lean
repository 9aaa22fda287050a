import DosKernel.Process.Queue
import DosKernel.Process.Switching

/-! `waitpid` and `exit`. The parent waits for a child and the child exits, in either
order, with timer interrupts before, between and behind the two system calls. -/

namespace DosKernel

open Lib

def esrch : ℕ := 3

/-- `mmu_writel` on the memory of the kernel. -/
def Kernel.writel (k : Kernel) (pdt addr data : ℕ) : Kernel :=
  { k with mmu := { k.mmu with mem := mmuWritel k.mmu.mem pdt addr data } }

@[simp] theorem Kernel.writel_procs (k : Kernel) (pdt addr data : ℕ) :
    (k.writel pdt addr data).procs = k.procs := rfl

/-- The fields that `process_notify_waitpid` sets. -/
def Process.wake (p : Process) (pid : ℕ) : Process :=
  { p with waitpid := 0, suspended := false, r := { p.r with eax := pid } }

/-- The fields that `syscall_waitpid` sets behind `process_idle`. -/
def Process.suspend (p : Process) (status : ℕ) : Process :=
  { p with suspended := true, waitpidStatus := status }

/-- The body of the loop of `process_notify_waitpid`. -/
def notifyNode (pid status : ℕ) (k : Kernel) (node : ℕ) : Kernel :=
  let p := k.procs node
  if p.waitpid = pid then
    if p.waitpidStatus ≠ 0 then (k.setProc node (·.wake pid)).writel p.pdt p.waitpidStatus status
    else k.setProc node (·.wake pid)
  else k

def processNotifyWaitpid (k : Kernel) (pid status : ℕ) : Kernel :=
  (k.nodes k.readyQueue).foldl (notifyNode pid status) k

/-- `syscall_exit`: the kernel, the frame and the returned value. The pid is read from
the process structure that `process_destroy` has freed. -/
def syscallExit (exitCode : ℕ) (k : Kernel) (r : Registers) : Kernel × Registers × ℕ :=
  let p := k.currentProcess
  let kr := processIdle (processDestroy k p exitCode) r
  (processNotifyWaitpid kr.1 (kr.1.procs p).pid exitCode, kr.2, exitCode)

def syscallWaitpid (pid status : ℕ) (k : Kernel) (r : Registers) : Kernel × Registers × ℕ :=
  let p := k.currentProcess
  let target := processByPid k pid
  if target = 0 then (k, r, word32 - esrch)
  else if (k.procs target).state = .zombie then
    (k.writel (k.procs p).pdt status (k.procs target).exitCode, r, 0)
  else
    let kr := processIdle (k.setProc p ({ · with waitpid := pid })) r
    (kr.1.setProc p (·.suspend status), kr.2, 0)

/-- `syscall_handler` around a system call. -/
def systemCall (call : Kernel → Registers → Kernel × Registers × ℕ) (k : Kernel) (r : Registers) :
    Kernel × Registers :=
  let c := call (processUnload k r) r
  let kr := processReload c.1 c.2.1
  (kr.1, { kr.2 with eax := c.2.2 })

/-! ### Reading back what was written -/

/-- A four-byte write at a user address is read back, when it does not hit the
directory or the page table it goes through. -/
theorem mmuReadl_mmuWritel {m : Memory} {pdt v data : ℕ} {e : PageEntry} (hd : IsPage pdt)
    (hv : v < 4294967296) (he : pageOf m pdt v = some e) (hoff : pageOffset v + 4 ≤ 4096)
    (hdir : e.frame ≠ pdt) (htable : e.frame ≠ (entryAt m (pdt + 4 * pdIndex v)).frame)
    (hdata : data < 4294967296) : mmuReadl (mmuWritel m pdt v data) pdt v = data := by
  have hf := PageEntry.isPage_frame e
  have h1 := hf.aligned
  have h2 := hf.top
  have hwrite : mmuWritel m pdt v data = m.store (e.frame + pageOffset v) 4 data := by
    rw [mmuWritel, mmuWrite, he, Option.elim_some]
  have hsame : ∀ q, IsPage q → e.frame ≠ q → SamePage (mmuWritel m pdt v data) m q := by
    intro q hq hne
    rw [hwrite]
    exact samePage_write hf (by omega) (by omega) hq hne.symm
  have hpage : pageOf (mmuWritel m pdt v data) pdt v = some e := by
    rw [← he]
    exact (pageOf_congr hd hv (hsame pdt hd hdir).symm
      fun _ => (hsame _ (PageEntry.isPage_frame _) htable).symm).symm
  rw [mmuReadl, mmuRead, hpage, Option.elim_some, hwrite]
  exact Memory.load_store (by simp only [space]; omega) hdata

/-- The place where the exit status goes is mapped for the parent and does not touch
page tables; the tables of the child are others than those it is found through. -/
structure StatusApart (s : Mmu) (pdt childPdt status : ℕ) : Prop where
  region : s.bitmap.Region
  small : s.bitmap.Small
  dir : IsPage pdt
  childDir : IsPage childPdt
  childSelf : ¬ IsTable s.mem childPdt 768 childPdt
  dir_ne : ¬ IsTable s.mem childPdt 768 pdt
  table_ne : ¬ IsTable s.mem childPdt 768 (entryAt s.mem (pdt + 4 * pdIndex status)).frame
  status_pos : status ≠ 0
  status_lt : status < 4294967296
  inside : pageOffset status + 4 ≤ 4096
  mapped : ∃ e, pageOf s.mem pdt status = some e ∧ e.frame ≠ pdt ∧
    e.frame ≠ (entryAt s.mem (pdt + 4 * pdIndex status)).frame

theorem StatusApart.congr {s s' : Mmu} {pdt childPdt status : ℕ}
    (h : StatusApart s pdt childPdt status) (hmem : s'.mem = s.mem) (hbitmap : s'.bitmap = s.bitmap) :
    StatusApart s' pdt childPdt status := by
  obtain ⟨h1, h2, h3, h4, h5, h6, h7, h8, h9, h10, h11⟩ := h
  exact ⟨hbitmap ▸ h1, hbitmap ▸ h2, h3, h4, hmem ▸ h5, hmem ▸ h6, hmem ▸ h7, h8, h9, h10, hmem ▸ h11⟩

/-- The status written after the child's address space was given back is read back. -/
theorem StatusApart.stored {s : Mmu} {pdt childPdt status code : ℕ}
    (h : StatusApart s pdt childPdt status) (hcode : code < 4294967296) :
    mmuReadl (mmuWritel (releaseAddressSpace s childPdt).mem pdt status code) pdt status = code := by
  have hrel := releaseAddressSpace_spec h.region h.small h.childDir h.childSelf
  generalize releaseAddressSpace s childPdt = s' at hrel
  obtain ⟨e, he, hne, htable⟩ := h.mapped
  have hi : pdIndex status < 1024 := by
    have := h.status_lt
    rw [pdIndex]
    omega
  have hdir : SamePage s'.mem s.mem pdt := hrel.same h.dir h.dir_ne
  have hentry : entryAt s'.mem (pdt + 4 * pdIndex status) = entryAt s.mem (pdt + 4 * pdIndex status) :=
    entryAt_congr h.dir hi hdir
  have hpage : pageOf s'.mem pdt status = some e := by
    rw [← he]
    refine (pageOf_congr h.dir h.status_lt hdir.symm fun _ => ?_).symm
    exact (hrel.same (PageEntry.isPage_frame _) h.table_ne).symm
  exact mmuReadl_mmuWritel h.dir h.status_lt hpage h.inside hne (hentry ▸ htable) hcode

/-! ### Steps of the two calls -/

section Calls
variable {k k' : Kernel} {r : Registers} {xs ys zs : List ℕ} {p child pid status code : ℕ}

/-- The queue while a system call runs: the current process is saved, so that no
process is running. -/
structure Parked (k : Kernel) (xs : List ℕ) : Prop where
  roundRobin : k.roundRobin = true
  list : IsList k.next k.readyQueue xs
  address : ∀ q ∈ xs, q < word32
  signal : ∀ q ∈ xs, (k.procs q).signal = 0
  stopped : ∀ q ∈ xs, (k.procs q).state ≠ .running

theorem Queued.parked (h : Queued k xs) (r : Registers) : Parked (processUnload k r) xs := by
  have hu := h.unload r
  obtain ⟨-, hcurrent, -, hstate⟩ := processUnload_spec (r := r) h.roundRobin
  refine ⟨hu.roundRobin, hu.list, hu.address, hu.signal, fun q hq hrun => ?_⟩
  have hqc := hu.running q hq hrun
  rw [hstate, if_pos (hqc.trans hcurrent)] at hrun
  cases hrun

/-- A change of fields that the switching code does not look at. -/
theorem Parked.setProc (h : Parked k xs) (p : ℕ) (f : Process → Process)
    (hf : ∀ a, (f a).next = a.next ∧ (f a).signal = a.signal ∧ (f a).state = a.state) :
    Parked (k.setProc p f) xs := by
  have hsame : ∀ q, ((k.setProc p f).procs q).next = (k.procs q).next ∧
      ((k.setProc p f).procs q).signal = (k.procs q).signal ∧
      ((k.setProc p f).procs q).state = (k.procs q).state := by
    intro q
    by_cases hq : q = p
    · rw [hq, Kernel.setProc_self]
      exact hf _
    · rw [Kernel.setProc_of_ne k f hq]
      exact ⟨rfl, rfl, rfl⟩
  refine ⟨h.roundRobin, h.list.congr fun q _ => (hsame q).1, h.address, ?_, ?_⟩
  · exact fun q hq => (hsame q).2.1.trans (h.signal q hq)
  · exact fun q hq => (hsame q).2.2 ▸ h.stopped q hq

theorem Parked.writel (h : Parked k xs) (pdt addr data : ℕ) : Parked (k.writel pdt addr data) xs :=
  ⟨h.roundRobin, h.list, h.address, h.signal, h.stopped⟩

/-- A parked queue when the idle process is the current one. -/
theorem Parked.queued (h : Parked k xs) (hcur : k.currentProcess = k.kernelIdleProcess) :
    Queued k xs :=
  ⟨h.roundRobin, h.list, h.address, .inl hcur, h.signal,
    fun q hq hrun => absurd hrun (h.stopped q hq)⟩

theorem processIdle_spec (h : Parked k xs) (hidle : k.kernelIdleProcess ∉ xs)
    (hsig : (k.procs k.kernelIdleProcess).signal = 0)
    (hne : k.currentProcess ≠ k.kernelIdleProcess) :
    Parked (processIdle k r).1 xs ∧
      Switches k (processIdle k r).1 k.kernelIdleProcess (fun q => (k.procs q).r) fun q =>
        if q = k.kernelIdleProcess then .running else if q = k.currentProcess then .ready
        else (k.procs q).state := by
  have hsw := (processSwitch_spec (r := r) hne hsig).1
  rw [processIdle]
  refine ⟨⟨hsw.table.roundRobin.trans h.roundRobin, ?_, h.address, ?_, ?_⟩, hsw⟩
  · rw [hsw.table.next_eq, hsw.table.readyQueue]
    exact h.list
  · exact fun q hq => (hsw.table.signal_eq q).trans (h.signal q hq)
  · intro q hq hrun
    rw [hsw.state_eq] at hrun
    split_ifs at hrun with hqi hqc
    · exact absurd (hqi ▸ hq) hidle
    · exact h.stopped q hq hrun

theorem processReload_running (h : (k.procs k.currentProcess).state = .running) :
    processReload k r = (k, r) := by
  rw [processReload]
  dsimp only
  rw [if_pos h, ite_self]

theorem processByPid_eq_zero (h : Queued k xs) (hpid : ∀ q ∈ xs, (k.procs q).pid ≠ pid) :
    processByPid k pid = 0 := by
  rw [processByPid, nodes_eq_of_isList h.list h.address,
    List.find?_eq_none.mpr fun q hq => by simpa using hpid q hq, Option.getD_none]

theorem processByPid_eq (h : Queued k xs) (hp : p ∈ xs)
    (hpid : ∀ q ∈ xs, (k.procs q).pid = (k.procs p).pid → q = p) :
    processByPid k (k.procs p).pid = p := by
  rw [processByPid, nodes_eq_of_isList h.list h.address]
  obtain ⟨q, hq⟩ := Option.isSome_iff_exists.mp (List.find?_isSome.mpr
    (⟨p, hp, by simp⟩ : ∃ x ∈ xs, decide ((k.procs x).pid = (k.procs p).pid) = true))
  rw [hq, Option.getD_some]
  exact hpid q (List.mem_of_find?_eq_some hq) (by simpa using List.find?_some hq)

/-- Without a process that waits for the pid, nobody is notified. -/
theorem notify_foldl_eq_self (hw : ∀ q ∈ xs, (k.procs q).waitpid ≠ pid) :
    xs.foldl (notifyNode pid status) k = k := by
  induction xs with
  | nil => rfl
  | cons x xs ih =>
    rw [List.foldl_cons, notifyNode, if_neg (hw x List.mem_cons_self)]
    exact ih fun q hq => hw q (List.mem_cons_of_mem x hq)

theorem notifyNode_of_ne {q : ℕ} (hq : q ≠ p) :
    (notifyNode pid status k p).procs q = k.procs q := by
  rw [notifyNode]
  split_ifs
  · rw [Kernel.writel_procs, Kernel.setProc_of_ne k _ hq]
  · rw [Kernel.setProc_of_ne k _ hq]
  · rfl

theorem notify_foldl_eq (hnodup : (ys ++ p :: zs).Nodup)
    (hw : ∀ q ∈ ys ++ p :: zs, q ≠ p → (k.procs q).waitpid ≠ pid) :
    (ys ++ p :: zs).foldl (notifyNode pid status) k = notifyNode pid status k p := by
  have hrest : ∀ q ∈ ys ++ zs, q ≠ p ∧ (k.procs q).waitpid ≠ pid := by
    intro q hq
    obtain ⟨hmem, hqp⟩ := mem_of_mem_rest hnodup hq
    exact ⟨hqp, hw q hmem hqp⟩
  have hfront : ys.foldl (notifyNode pid status) k = k :=
    notify_foldl_eq_self fun q hq => (hrest q (List.mem_append_left zs hq)).2
  rw [List.foldl_append, hfront, List.foldl_cons]
  refine notify_foldl_eq_self fun q hq => ?_
  obtain ⟨hqp, hwait⟩ := hrest q (List.mem_append_right ys hq)
  rw [notifyNode_of_ne hqp]
  exact hwait

/-- `syscall_waitpid` of a process that is in the queue and not a zombie: the caller
is suspended and the idle process runs. -/
structure WaitCalled (k k' : Kernel) (pid status : ℕ) (xs : List ℕ) : Prop where
  queued : Queued k' xs
  current : k'.currentProcess = k.kernelIdleProcess
  idle : k'.kernelIdleProcess = k.kernelIdleProcess
  mem : k'.mmu.mem = k.mmu.mem
  bitmap : k'.mmu.bitmap = k.mmu.bitmap
  waiter : ∃ fr n, k'.procs k.currentProcess = Process.suspend { k.procs k.currentProcess with
    state := .ready, r := fr, preemptions := n, waitpid := pid } status
  other : ∀ q, q ≠ k.currentProcess → ∃ st fr n,
    k'.procs q = { k.procs q with state := st, r := fr, preemptions := n }

theorem systemCall_wait (r : Registers) (status : ℕ) (h : Queued k xs) (hidle : k.kernelIdleProcess ∉ xs)
    (hsig : (k.procs k.kernelIdleProcess).signal = 0) (hcur : k.currentProcess ∈ xs)
    (hchild : child ∈ xs) (hne : child ≠ k.currentProcess)
    (hpid : ∀ q ∈ xs, (k.procs q).pid = (k.procs child).pid → q = child)
    (halive : (k.procs child).state ≠ .zombie) :
    WaitCalled k (systemCall (syscallWaitpid (k.procs child).pid status) k r).1
      (k.procs child).pid status xs := by
  have hcidle : k.currentProcess ≠ k.kernelIdleProcess := fun he => hidle (he ▸ hcur)
  obtain ⟨htable, hcurrent, hframe, hstate⟩ := processUnload_spec (r := r) h.roundRobin
  have hu := h.unload r
  have hparked := h.parked r
  rw [systemCall]
  generalize processUnload k r = u at *
  have hpids : ∀ q, (u.procs q).pid = (k.procs q).pid := by
    intro q
    obtain ⟨st, fr, n, e⟩ := htable.proc q
    rw [e]
  have htarget : processByPid u (k.procs child).pid = child := by
    rw [← hpids child]
    refine processByPid_eq hu hchild fun q hq => ?_
    rw [hpids, hpids]
    exact hpid q hq
  have halive' : (u.procs child).state ≠ .zombie := by
    rw [hstate, if_neg hne]
    exact halive
  rw [syscallWaitpid, htarget, if_neg (h.list.ne_zero hchild), if_neg halive', hcurrent]
  dsimp only
  have hv : Parked (u.setProc k.currentProcess ({ · with waitpid := (k.procs child).pid })) xs :=
    hparked.setProc _ _ fun _ => ⟨rfl, rfl, rfl⟩
  generalize hvdef : u.setProc k.currentProcess ({ · with waitpid := (k.procs child).pid }) = v at *
  have hvidle : v.kernelIdleProcess = k.kernelIdleProcess := by
    rw [← hvdef]
    exact htable.idle
  have hvcur : v.currentProcess = k.currentProcess := by
    rw [← hvdef]
    exact hcurrent
  have hvself : v.procs k.currentProcess =
      { u.procs k.currentProcess with waitpid := (k.procs child).pid } := by
    rw [← hvdef, Kernel.setProc_self]
  have hvother : ∀ q, q ≠ k.currentProcess → v.procs q = u.procs q := by
    intro q hq
    rw [← hvdef, Kernel.setProc_of_ne u _ hq]
  obtain ⟨hw, hsw⟩ := processIdle_spec (r := r) hv (hvidle ▸ hidle)
    (by rw [hvidle, hvother _ hcidle.symm, htable.signal_eq, hsig]) (by rw [hvidle, hvcur]; exact hcidle)
  generalize processIdle v r = w at *
  have hsleep : Queued (w.1.setProc k.currentProcess (·.suspend status)) xs :=
    (hw.setProc k.currentProcess (·.suspend status) fun _ => ⟨rfl, rfl, rfl⟩).queued
      (hsw.current_eq.trans hsw.table.idle.symm)
  have hrun : ((w.1.setProc k.currentProcess (·.suspend status)).procs
      (w.1.setProc k.currentProcess (·.suspend status)).currentProcess).state = .running := by
    have hwcur : (w.1.setProc k.currentProcess (·.suspend status)).currentProcess =
        k.kernelIdleProcess := hsw.current_eq.trans hvidle
    rw [hwcur, Kernel.setProc_of_ne _ _ hcidle.symm, hsw.state_eq, hvidle, if_pos rfl]
  rw [processReload_running hrun]
  refine ⟨hsleep, hsw.current_eq.trans hvidle, hsw.table.idle.trans hvidle, ?_, ?_, ?_, ?_⟩
  · rw [Kernel.setProc, hsw.table.mem, ← hvdef]
    exact htable.mem
  · rw [Kernel.setProc, hsw.table.bitmap, ← hvdef]
    exact htable.bitmap
  · obtain ⟨st, fr, n, e⟩ := htable.proc k.currentProcess
    obtain ⟨st', fr', n', e'⟩ := hsw.table.proc k.currentProcess
    have hst := hsw.state_eq k.currentProcess
    rw [hvidle, hvcur, if_neg hcidle, if_pos rfl, e', hvself] at hst
    refine ⟨fr', n', ?_⟩
    dsimp only at hst
    rw [Kernel.setProc_self, e', hvself, e, hst]
  · intro q hq
    obtain ⟨st, fr, n, e⟩ := htable.proc q
    obtain ⟨st', fr', n', e'⟩ := hsw.table.proc q
    refine ⟨st', fr', n', ?_⟩
    rw [Kernel.setProc_of_ne _ _ hq, e', hvother q hq, e]

theorem notify_foldl_of_not_mem (xs : List ℕ) {q : ℕ} (hq : q ∉ xs) :
    (xs.foldl (notifyNode pid status) k).procs q = k.procs q := by
  induction xs generalizing k with
  | nil => rfl
  | cons x xs ih =>
    have hqx : q ≠ x := fun h => hq (h ▸ List.mem_cons_self)
    rw [List.foldl_cons, ih fun h => hq (List.mem_cons_of_mem x h), notifyNode_of_ne hqx]

theorem notify_foldl_currentProcess (xs : List ℕ) :
    (xs.foldl (notifyNode pid status) k).currentProcess = k.currentProcess := by
  induction xs generalizing k with
  | nil => rfl
  | cons x xs ih =>
    rw [List.foldl_cons, ih, notifyNode]
    split_ifs <;> rfl

/-- The state in which `syscall_exit` of the current process notifies the waiting
ones: the process is out of the queue and its address space given back. -/
structure ExitCalled (k w : Kernel) (ys zs : List ℕ) : Prop where
  parked : Parked w (ys ++ zs)
  current : w.currentProcess = k.kernelIdleProcess
  idle : w.kernelIdleProcess = k.kernelIdleProcess
  mem : ∃ s : Mmu, s.mem = k.mmu.mem ∧ s.bitmap = k.mmu.bitmap ∧
    w.mmu.mem = (releaseAddressSpace s (k.procs k.currentProcess).pdt).mem
  other : ∀ q, q ≠ k.currentProcess → ∃ n par pre, w.procs q = { k.procs q with
    next := n, parent := par, preemptions := pre
    state := if q = k.kernelIdleProcess then .running else (k.procs q).state }

theorem Destroyed.other {d : Kernel} {exitCode : ℕ} (h : Destroyed k d p exitCode ys zs) {q : ℕ}
    (hq : q ≠ p) : ∃ n par, d.procs q = { k.procs q with next := n, parent := par } := by
  obtain ⟨n, e⟩ := h.proc q
  rw [if_neg hq, if_neg hq, reparented] at e
  split_ifs at e
  · exact ⟨n, _, e⟩
  · exact ⟨n, _, e⟩

theorem Destroyed.parked {d : Kernel} {exitCode : ℕ} (h : Destroyed k d p exitCode ys zs)
    (hk : Parked k (ys ++ p :: zs)) : Parked d (ys ++ zs) := by
  have hsub : ∀ q ∈ ys ++ zs, q ∈ ys ++ p :: zs ∧ q ≠ p :=
    fun q hq => mem_of_mem_rest hk.list.nodup hq
  refine ⟨(congrArg Kernel.roundRobin h.rest :).trans hk.roundRobin, h.list, ?_, ?_, ?_⟩
  · exact fun q hq => hk.address q (hsub q hq).1
  · intro q hq
    obtain ⟨n, par, e⟩ := h.other (hsub q hq).2
    rw [e]
    exact hk.signal q (hsub q hq).1
  · intro q hq
    obtain ⟨n, par, e⟩ := h.other (hsub q hq).2
    rw [e]
    exact hk.stopped q (hsub q hq).1

theorem systemCall_exit (k : Kernel) (ys zs : List ℕ) (code : ℕ) (r : Registers)
    (h : Queued k (ys ++ k.currentProcess :: zs))
    (hidle : k.kernelIdleProcess ∉ ys ++ k.currentProcess :: zs)
    (hsig : (k.procs k.kernelIdleProcess).signal = 0) :
    ∃ w, ExitCalled k w ys zs ∧ (systemCall (syscallExit code) k r).1 =
      (ys ++ zs).foldl (notifyNode (k.procs k.currentProcess).pid code) w := by
  have hcidle : k.currentProcess ≠ k.kernelIdleProcess := fun he => hidle (he ▸ by simp)
  have hun := processUnload_spec (r := r) h.roundRobin
  have hu := h.parked r
  rw [systemCall, syscallExit]
  generalize processUnload k r = u at *
  have htable := hun.table
  have hself : (u.procs k.currentProcess).pid = (k.procs k.currentProcess).pid ∧
      (u.procs k.currentProcess).pdt = (k.procs k.currentProcess).pdt := by
    obtain ⟨n, e⟩ := hun.proc_eq k.currentProcess
    rw [e]
    exact ⟨rfl, rfl⟩
  rw [hun.current_eq]
  have hd := processDestroy_spec hu.list hu.address (htable.idle ▸ hcidle) code
  generalize processDestroy u k.currentProcess code = d at *
  have hdcur : d.currentProcess = k.currentProcess :=
    (congrArg Kernel.currentProcess hd.rest :).trans hun.current_eq
  have hdidle : d.kernelIdleProcess = k.kernelIdleProcess :=
    (congrArg Kernel.kernelIdleProcess hd.rest :).trans htable.idle
  have hdsig : (d.procs d.kernelIdleProcess).signal = 0 := by
    obtain ⟨n, par, e⟩ := hd.other hcidle.symm
    rw [hdidle, e]
    exact (htable.signal_eq _).trans hsig
  have hdnot : d.kernelIdleProcess ∉ ys ++ zs := fun hm =>
    hidle (hdidle ▸ (mem_of_mem_rest hu.list.nodup hm).1)
  obtain ⟨hw, hsw⟩ := processIdle_spec (r := r) (hd.parked hu) hdnot hdsig
    (by rw [hdcur, hdidle]; exact hcidle)
  generalize processIdle d r = w at *
  have hwcur : w.1.currentProcess = k.kernelIdleProcess := hsw.current_eq.trans hdidle
  have hwidle : w.1.kernelIdleProcess = k.kernelIdleProcess := hsw.table.idle.trans hdidle
  have hpid : (w.1.procs k.currentProcess).pid = (k.procs k.currentProcess).pid := by
    obtain ⟨n, e⟩ := hsw.proc_eq k.currentProcess
    rw [e, ← hself.1]
    exact hd.field_eq Process.pid (fun _ _ _ _ _ => rfl) k.currentProcess
  have hqueued : Queued w.1 (ys ++ zs) := hw.queued (hwcur.trans hwidle.symm)
  refine ⟨w.1, ⟨hw, hwcur, hwidle, ?_, ?_⟩, ?_⟩
  · refine ⟨u.mmu, htable.mem, htable.bitmap, ?_⟩
    rw [hsw.table.mem, hd.mmu, hself.2]
  · intro q hq
    obtain ⟨pre, e⟩ := hun.proc_eq q
    obtain ⟨n, par, e'⟩ := hd.other hq
    obtain ⟨pre', e''⟩ := hsw.proc_eq q
    rw [if_neg hq, if_neg hq] at e
    rw [hdidle, hdcur, if_neg hq, e', e] at e''
    exact ⟨n, par, pre', e''⟩
  · dsimp only
    rw [processNotifyWaitpid, hpid, nodes_eq_of_isList hqueued.list hqueued.address, processReload_running]
    rw [notify_foldl_currentProcess, hwcur, notify_foldl_of_not_mem _ (hdidle ▸ hdnot), hsw.state_eq,
      hdidle, if_pos rfl]

end Calls

end DosKernel
