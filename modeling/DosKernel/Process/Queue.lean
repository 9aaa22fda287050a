import DosKernel.Lib.Runs
import DosKernel.Process.Calloc

/-! The table of processes. The ready queue holds the processes that were created and
not yet destroyed, in the order of their creation; creation, fork and destruction
keep it so. -/

namespace DosKernel

open Lib

/-! ### The operations of the queue -/

/-- The two states differ only in the queue: its head and the fields `next`. -/
structure SameButQueue (k k' : Kernel) : Prop where
  rest : { k' with readyQueue := k.readyQueue, procs := k.procs } = k
  proc : ∀ q, ∃ n, k'.procs q = { k.procs q with next := n }

namespace SameButQueue

variable {k k' : Kernel}

theorem field_eq {α : Type*} (h : SameButQueue k k') (f : Process → α)
    (hf : ∀ a n, f { a with next := n } = f a) (q : ℕ) : f (k'.procs q) = f (k.procs q) := by
  obtain ⟨n, e⟩ := h.proc q
  rw [e, hf]

theorem pid_eq (h : SameButQueue k k') (q : ℕ) : (k'.procs q).pid = (k.procs q).pid :=
  h.field_eq Process.pid (fun _ _ => rfl) q

theorem parent_eq (h : SameButQueue k k') (q : ℕ) : (k'.procs q).parent = (k.procs q).parent :=
  h.field_eq Process.parent (fun _ _ => rfl) q

theorem nextPid_eq (h : SameButQueue k k') : k'.nextPid = k.nextPid :=
  (congrArg Kernel.nextPid h.rest :)

end SameButQueue

section QueueOps
variable {k : Kernel} {p : ℕ} {xs ys zs : List ℕ}

theorem SameButQueue.setNext (k : Kernel) (p n : ℕ) :
    SameButQueue k (k.setProc p ({ · with next := n })) := by
  refine ⟨rfl, fun q => ?_⟩
  by_cases hq : q = p
  · rw [hq, Kernel.setProc_self]
    exact ⟨n, rfl⟩
  · rw [Kernel.setProc_of_ne k _ hq]
    exact ⟨_, rfl⟩

theorem SameButQueue.setHead (k : Kernel) (p : ℕ) : SameButQueue k { k with readyQueue := p } :=
  ⟨rfl, fun _ => ⟨_, rfl⟩⟩

theorem Kernel.next_setNext (k : Kernel) (p n : ℕ) :
    (k.setProc p ({ · with next := n })).next = Function.update k.next p n := by
  funext q
  by_cases hq : q = p
  · rw [hq, Function.update_self, Kernel.next, Kernel.setProc_self]
  · rw [Function.update_of_ne hq, Kernel.next, Kernel.setProc_of_ne k _ hq, Kernel.next]

theorem nodes_eq_of_isList (hlist : IsList k.next k.readyQueue xs) (haddr : ∀ q ∈ xs, q < word32) :
    k.nodes k.readyQueue = xs := hlist.walk_eq (hlist.length_le haddr)

/-- `process_add_ready_queue` puts a new process at the end. -/
theorem processAddReadyQueue_spec (hlist : IsList k.next k.readyQueue xs)
    (haddr : ∀ q ∈ xs, q < word32) (hp0 : p ≠ 0) (hp : p ∉ xs) (hnext : k.next p = 0) :
    IsList (processAddReadyQueue k p).next (processAddReadyQueue k p).readyQueue (xs ++ [p]) ∧
      SameButQueue k (processAddReadyQueue k p) := by
  rw [processAddReadyQueue, nodes_eq_of_isList hlist haddr]
  rcases xs.eq_nil_or_concat' with rfl | ⟨ys, q, rfl⟩
  · have h0 : k.readyQueue = 0 := hlist
    rw [if_pos h0]
    exact ⟨⟨rfl, hp0, hnext⟩, SameButQueue.setHead k p⟩
  · have hhead : k.readyQueue ≠ 0 := by
      cases ys with
      | nil => exact hlist.1 ▸ hlist.2.1
      | cons y ys => exact hlist.1 ▸ hlist.2.1
    have hne : ∀ x ∈ ys ++ [q], x ≠ p := fun x hx h => hp (h ▸ hx)
    rw [if_neg hhead, List.getLast?_concat, Option.elim_some, Kernel.next_setNext]
    refine ⟨?_, SameButQueue.setNext k q p⟩
    rw [List.append_assoc]
    have hnodup := List.nodup_append.mp hlist.nodup
    refine hlist.snoc hp0 (Function.update_self _ _ _) ?_ fun x hx => ?_
    · rw [Function.update_of_ne (hne q (by simp)).symm, hnext]
    · exact Function.update_of_ne (hnodup.2.2 x hx q (by simp)) _ _

theorem processAddReadyQueue_null (hlist : IsList k.next k.readyQueue xs)
    (haddr : ∀ q ∈ xs, q < word32) :
    IsList (processAddReadyQueue k 0).next (processAddReadyQueue k 0).readyQueue xs ∧
      SameButQueue k (processAddReadyQueue k 0) := by
  rw [processAddReadyQueue, nodes_eq_of_isList hlist haddr]
  split_ifs with h0
  · rw [h0] at hlist
    exact ⟨hlist, SameButQueue.setHead k 0⟩
  · rcases xs.eq_nil_or_concat' with rfl | ⟨ys, q, rfl⟩
    · exact absurd hlist h0
    · have hlast : k.next q = 0 := hlist.next_of_append
      rw [List.getLast?_concat, Option.elim_some, Kernel.next_setNext,
        Function.update_eq_self_iff.mpr hlast.symm]
      exact ⟨hlist, SameButQueue.setNext k q 0⟩

theorem processAddReadyQueue_same (k : Kernel) (p : ℕ) :
    SameButQueue k (processAddReadyQueue k p) := by
  rw [processAddReadyQueue]
  split_ifs
  · exact SameButQueue.setHead k p
  · cases (k.nodes k.readyQueue).getLast? with
    | none => exact ⟨rfl, fun _ => ⟨_, rfl⟩⟩
    | some last => exact SameButQueue.setNext k last p

theorem removeFrom_same (k : Kernel) (p prev : ℕ) (xs : List ℕ) :
    SameButQueue k (removeFrom k p prev xs) := by
  induction xs generalizing prev with
  | nil => exact ⟨rfl, fun _ => ⟨_, rfl⟩⟩
  | cons x xs ih =>
    rw [removeFrom]
    split_ifs
    · exact SameButQueue.setNext k prev _
    · exact SameButQueue.setHead k _
    · exact ih x

/-- The loop stops at the process and links around it. -/
theorem removeFrom_append (k : Kernel) (p prev : ℕ) (hp : p ∉ ys) :
    removeFrom k p prev (ys ++ p :: zs) =
      if ys.getLast?.getD prev ≠ 0 then
        k.setProc (ys.getLast?.getD prev) ({ · with next := k.next p })
      else { k with readyQueue := k.next p } := by
  induction ys generalizing prev with
  | nil =>
    rw [List.nil_append, removeFrom, if_pos rfl]
    rfl
  | cons y ys ih =>
    have hy : y ≠ p := fun h => hp (h ▸ List.mem_cons_self)
    rw [List.cons_append, removeFrom, if_neg hy, ih y fun h => hp (List.mem_cons_of_mem y h)]
    cases ys <;> rfl

/-- `process_remove_ready_queue` takes out one process and keeps the others in order. -/
theorem processRemoveReadyQueue_spec (hlist : IsList k.next k.readyQueue (ys ++ p :: zs))
    (haddr : ∀ q ∈ ys ++ p :: zs, q < word32) :
    IsList (processRemoveReadyQueue k p).next (processRemoveReadyQueue k p).readyQueue (ys ++ zs) := by
  have hnodup := hlist.nodup
  have hp : p ∉ ys := fun h => not_mem_rest hnodup (List.mem_append_left zs h)
  rw [processRemoveReadyQueue, nodes_eq_of_isList hlist haddr, removeFrom_append k p 0 hp]
  rcases ys.eq_nil_or_concat' with rfl | ⟨ws, q, rfl⟩
  · rw [if_neg (by simp)]
    exact hlist.2.2
  · have hq : q ≠ 0 := hlist.ne_zero (by simp)
    rw [List.getLast?_concat, Option.getD_some, if_pos hq, Kernel.next_setNext]
    rw [List.append_assoc] at hlist hnodup ⊢
    refine hlist.erase_next (Function.update_self _ _ _) fun x hx => Function.update_of_ne ?_ _ _
    rintro rfl
    refine not_mem_rest hnodup ?_
    rcases List.mem_append.mp hx with hx | hx
    · exact List.mem_append_left _ hx
    · exact List.mem_append_right _ (List.mem_cons_of_mem p hx)

/-- The children of `p` among `xs` are given to its parent. -/
def reparented (k : Kernel) (p : ℕ) (xs : List ℕ) (q : ℕ) : Process :=
  if q ∈ xs ∧ (k.procs q).parent = p then { k.procs q with parent := (k.procs p).parent }
  else k.procs q

theorem reparented_parent (k : Kernel) (p : ℕ) (xs : List ℕ) :
    (reparented k p xs p).parent = (k.procs p).parent := by
  rw [reparented]
  split_ifs <;> rfl

theorem reparented_next (k : Kernel) (p : ℕ) (xs : List ℕ) (q : ℕ) :
    (reparented k p xs q).next = k.next q := by
  rw [reparented, Kernel.next]
  split_ifs <;> rfl

theorem reparented_pid (k : Kernel) (p : ℕ) (xs : List ℕ) (q : ℕ) :
    (reparented k p xs q).pid = (k.procs q).pid := by
  rw [reparented]
  split_ifs <;> rfl

/-- The loop reads the parent of `p` again in every round, but does not change it. -/
theorem reparent_foldl (k : Kernel) (p : ℕ) (xs : List ℕ) :
    xs.foldl (fun k node => if (k.procs node).parent = p then
        k.setProc node ({ · with parent := (k.procs p).parent }) else k) k =
      { k with procs := reparented k p xs } := by
  induction xs generalizing k with
  | nil =>
    have h : reparented k p [] = k.procs := by
      funext q
      simp [reparented]
    rw [List.foldl_nil, h]
  | cons x xs ih =>
    have hstep : (if (k.procs x).parent = p then
        k.setProc x ({ · with parent := (k.procs p).parent }) else k) =
        { k with procs := reparented k p [x] } := by
      split_ifs with hx
      · rw [Kernel.setProc]
        congr 1
        funext q
        by_cases hq : q = x
        · rw [hq, Function.update_self, reparented, if_pos ⟨by simp, hx⟩]
        · rw [Function.update_of_ne hq, reparented, if_neg (by simp [hq])]
      · have h : reparented k p [x] = k.procs := by
          funext q
          rw [reparented, if_neg]
          rintro ⟨hq, hqp⟩
          exact hx (List.mem_singleton.mp hq ▸ hqp)
        rw [h]
    rw [List.foldl_cons, hstep, ih]
    congr 1
    funext q
    rw [reparented]
    dsimp only
    rw [reparented_parent]
    by_cases hq : (k.procs q).parent = p
    · by_cases hqx : q = x
      · simp only [reparented, hqx, List.mem_cons, true_and, true_or]
        rw [hqx] at hq
        simp [hq]
      · simp [reparented, hqx, hq]
    · simp [reparented, hq]

/-- The loop of `process_destroy` over the queue. -/
theorem reparentChildren_eq (k : Kernel) (p : ℕ) : reparentChildren k p =
    { k with procs := reparented k p (k.nodes k.readyQueue) } := reparent_foldl k p _

/-- What `process_destroy` leaves of the kernel `k` when the process `p` stood between
`ys` and `zs` in the queue. -/
structure Destroyed (k k' : Kernel) (p exitCode : ℕ) (ys zs : List ℕ) : Prop where
  list : IsList k'.next k'.readyQueue (ys ++ zs)
  proc : ∀ q, ∃ n, k'.procs q = { reparented k p (ys ++ p :: zs) q with
    state := if q = p then .zombie else (k.procs q).state
    exitCode := if q = p then exitCode else (k.procs q).exitCode
    next := n }
  mmu : k'.mmu = releaseAddressSpace k.mmu (k.procs p).pdt
  rest : { k' with
    mmu := k.mmu, heap := k.heap, files := k.files, procs := k.procs
    readyQueue := k.readyQueue } = k

/-- Everything else in the process structures is the same, that of `p` included. -/
theorem Destroyed.field_eq {k' : Kernel} {exitCode : ℕ} {α : Type*}
    (h : Destroyed k k' p exitCode ys zs) (f : Process → α)
    (hf : ∀ a st e n par, f { a with state := st, exitCode := e, next := n, parent := par } = f a)
    (q : ℕ) : f (k'.procs q) = f (k.procs q) := by
  obtain ⟨n, e⟩ := h.proc q
  rw [e, reparented]
  split_ifs
  all_goals exact hf (k.procs q) _ _ n _

theorem processDestroy_spec (hlist : IsList k.next k.readyQueue (ys ++ p :: zs))
    (haddr : ∀ q ∈ ys ++ p :: zs, q < word32) (hidle : p ≠ k.kernelIdleProcess) (exitCode : ℕ) :
    Destroyed k (processDestroy k p exitCode) p exitCode ys zs := by
  rw [processDestroy, if_neg hidle]
  have hprocs := processRelease_procs k p exitCode
  have hmmu := processRelease_mmu k p exitCode
  have hframe := processRelease_frame k p exitCode
  generalize processRelease k p exitCode = k₁ at *
  have hproc₁ : ∀ q, k₁.procs q = { k.procs q with
      state := if q = p then .zombie else (k.procs q).state
      exitCode := if q = p then exitCode else (k.procs q).exitCode } := by
    intro q
    rw [hprocs, Function.update_apply]
    split_ifs with hq
    · rw [hq]
    · rfl
  have hqueue : k₁.readyQueue = k.readyQueue := (congrArg Kernel.readyQueue hframe :)
  have hlist₁ : IsList k₁.next k₁.readyQueue (ys ++ p :: zs) := by
    rw [hqueue]
    exact hlist.congr fun q _ => by rw [Kernel.next, hproc₁, Kernel.next]
  rw [reparentChildren_eq, nodes_eq_of_isList hlist₁ haddr]
  generalize hk₂ : ({ k₁ with procs := reparented k₁ p (ys ++ p :: zs) } : Kernel) = k₂
  have hprocs₂ : k₂.procs = reparented k₁ p (ys ++ p :: zs) := by rw [← hk₂]
  have hlist₂ : IsList k₂.next k₂.readyQueue (ys ++ p :: zs) := by
    have hq₂ : k₂.readyQueue = k₁.readyQueue := by rw [← hk₂]
    rw [hq₂]
    exact hlist₁.congr fun q _ => by rw [Kernel.next, hprocs₂, reparented_next]
  have hlist₃ := processRemoveReadyQueue_spec hlist₂ haddr
  have hsame : SameButQueue k₂ (processRemoveReadyQueue k₂ p) := removeFrom_same k₂ p 0 _
  refine ⟨?_, fun q => ?_, ?_, ?_⟩
  · rw [free_next, free_readyQueue]
    exact hlist₃
  · obtain ⟨n, e⟩ := hsame.proc q
    refine ⟨n, ?_⟩
    rw [free_procs, e, hprocs₂, reparented, reparented, hproc₁ q, hproc₁ p]
    split_ifs <;> rfl
  · have hmmu₂ : k₂.mmu = k₁.mmu := by rw [← hk₂]
    rw [free_mmu, ← hmmu, ← hmmu₂]
    exact (congrArg Kernel.mmu hsame.rest :)
  · have hfree := free_frame (processRemoveReadyQueue k₂ p) p
    have hrest := hsame.rest
    generalize free (processRemoveReadyQueue k₂ p) p = k₄ at hfree
    generalize processRemoveReadyQueue k₂ p = k₃ at hfree hrest
    obtain rfl := hk₂
    cases k₄; cases k₃; cases k₁; cases k
    simp only [Kernel.mk.injEq] at hfree hrest hframe ⊢
    grind

end QueueOps

/-! ### The invariant of the table -/

/-- The queue holds `created`; pids grow along it, and a parent is a queued process
with a smaller pid. -/
structure ProcessTableInv (k : Kernel) (created : List ℕ) : Prop where
  list : IsList k.next k.readyQueue created
  address : ∀ p ∈ created, p < word32
  pid_pos : ∀ p ∈ created, 0 < (k.procs p).pid
  pid_lt : ∀ p ∈ created, (k.procs p).pid < k.nextPid
  sorted : created.Pairwise fun p q => (k.procs p).pid < (k.procs q).pid
  parent : ∀ p ∈ created, (k.procs p).parent = 0 ∨
    (k.procs p).parent ∈ created ∧ (k.procs (k.procs p).parent).pid < (k.procs p).pid
  nextPid_pos : 0 < k.nextPid

namespace ProcessTableInv

variable {k k' : Kernel} {xs ys zs : List ℕ} {p c : ℕ}

/-- Some of the processes stay, with their pids, and their parents are among them. -/
theorem of_sublist (h : ProcessTableInv k xs) (hsub : ys.Sublist xs)
    (hlist : IsList k'.next k'.readyQueue ys)
    (hpid : ∀ q ∈ ys, (k'.procs q).pid = (k.procs q).pid)
    (hparent : ∀ q ∈ ys, (k'.procs q).parent = 0 ∨
      (k'.procs q).parent ∈ ys ∧ (k.procs (k'.procs q).parent).pid < (k.procs q).pid)
    (hnext : k.nextPid ≤ k'.nextPid) : ProcessTableInv k' ys := by
  refine ⟨hlist, fun q hq => h.address q (hsub.subset hq), ?_, ?_, ?_, ?_,
    h.nextPid_pos.trans_le hnext⟩
  · intro q hq
    rw [hpid q hq]
    exact h.pid_pos q (hsub.subset hq)
  · intro q hq
    rw [hpid q hq]
    exact (h.pid_lt q (hsub.subset hq)).trans_le hnext
  · refine (h.sorted.sublist hsub).imp_of_mem fun hq hr hlt => ?_
    rw [hpid _ hq, hpid _ hr]
    exact hlt
  · intro q hq
    rw [hpid q hq]
    refine (hparent q hq).imp_right fun hpq => ?_
    rw [hpid _ hpq.1]
    exact hpq

/-- Only the queue, the pids and the parents of the queued processes matter. -/
theorem congr (h : ProcessTableInv k xs) (hlist : IsList k'.next k'.readyQueue xs)
    (hpid : ∀ q ∈ xs, (k'.procs q).pid = (k.procs q).pid)
    (hparent : ∀ q ∈ xs, (k'.procs q).parent = (k.procs q).parent)
    (hnext : k.nextPid ≤ k'.nextPid) : ProcessTableInv k' xs := by
  refine h.of_sublist (List.Sublist.refl xs) hlist hpid (fun q hq => ?_) hnext
  rw [hparent q hq]
  exact h.parent q hq

/-- The heap and the pages of the kernel do not matter. -/
theorem of_frame (h : ProcessTableInv k xs)
    (hk : { k' with heap := k.heap, mmu := k.mmu, cr3 := k.cr3 } = k) : ProcessTableInv k' xs := by
  have hprocs : k'.procs = k.procs := (congrArg Kernel.procs hk :)
  have hqueue : k'.readyQueue = k.readyQueue := (congrArg Kernel.readyQueue hk :)
  have hnext : k'.nextPid = k.nextPid := (congrArg Kernel.nextPid hk :)
  refine h.congr ?_ (fun q _ => by rw [hprocs]) (fun q _ => by rw [hprocs]) hnext.ge
  rw [hqueue]
  exact h.list.congr fun q _ => by rw [Kernel.next, hprocs, Kernel.next]

theorem malloc (h : ProcessTableInv k xs) {size ptr : ℕ}
    (hm : DosKernel.malloc k size = some (ptr, k')) : ProcessTableInv k' xs := by
  rw [← malloc_frame hm] at h
  exact h.of_frame rfl

theorem allocate (h : ProcessTableInv k xs) {a : Allocated}
    (ha : processAllocate k = some (a, k')) : ProcessTableInv k' xs := by
  rw [← processAllocate_frame ha] at h
  exact h.of_frame rfl

/-- Another list of the same processes. -/
theorem requeue (h : ProcessTableInv k xs) (hlist : IsList k'.next k'.readyQueue xs)
    (hsame : SameButQueue k k') : ProcessTableInv k' xs :=
  h.congr hlist (fun q _ => hsame.pid_eq q) (fun q _ => hsame.parent_eq q) hsame.nextPid_eq.ge

/-- A process behind the others, with the next pid and without a parent or with a
queued one. -/
theorem snoc (h : ProcessTableInv k xs) (hlist : IsList k'.next k'.readyQueue (xs ++ [p]))
    (hsame : SameButQueue k k') (haddr : p < word32) (hpos : 0 < (k.procs p).pid)
    (hlt : (k.procs p).pid < k.nextPid) (hlast : ∀ q ∈ xs, (k.procs q).pid < (k.procs p).pid)
    (hparent : (k.procs p).parent = 0 ∨ (k.procs p).parent ∈ xs) :
    ProcessTableInv k' (xs ++ [p]) := by
  have hmem : ∀ q ∈ xs ++ [p], q ∈ xs ∨ q = p := fun q hq => by simpa using hq
  refine ⟨hlist, ?_, ?_, ?_, ?_, ?_, hsame.nextPid_eq ▸ h.nextPid_pos⟩
  · intro q hq
    rcases hmem q hq with hq | rfl
    exacts [h.address q hq, haddr]
  all_goals simp only [hsame.pid_eq, hsame.parent_eq, hsame.nextPid_eq]
  · intro q hq
    rcases hmem q hq with hq | rfl
    exacts [h.pid_pos q hq, hpos]
  · intro q hq
    rcases hmem q hq with hq | rfl
    exacts [h.pid_lt q hq, hlt]
  · refine List.pairwise_append.mpr ⟨h.sorted, List.pairwise_singleton _ _, fun q hq r hr => ?_⟩
    rw [List.mem_singleton.mp hr]
    exact hlast q hq
  · intro q hq
    rcases hmem q hq with hq | rfl
    · exact (h.parent q hq).imp_right fun hpq => ⟨List.mem_append_left _ hpq.1, hpq.2⟩
    · exact hparent.imp_right fun hpq => ⟨List.mem_append_left _ hpq, hlast _ hpq⟩

/-- The queue before the new process is put into it. -/
theorem fill (h : ProcessTableInv k xs) {a : Allocated} (entry stackBase pdt : ℕ) (switchTo : Bool)
    (hlt : k.nextPid + 1 < word32) (hfresh : a.node ∉ xs) :
    ProcessTableInv (processFill k a entry stackBase pdt switchTo) xs := by
  have hne : ∀ q ∈ xs, q ≠ a.node := fun q hq hqa => hfresh (hqa ▸ hq)
  have hprocs : ∀ q ∈ xs, (processFill k a entry stackBase pdt switchTo).procs q = k.procs q :=
    fun q hq => Function.update_of_ne (hne q hq) _ _
  refine h.congr ?_ (fun q hq => by rw [hprocs q hq]) (fun q hq => by rw [hprocs q hq]) ?_
  · exact h.list.congr fun q hq => by rw [Kernel.next, hprocs q hq, Kernel.next]
  · rw [processFill, Nat.mod_eq_of_lt hlt]
    exact Nat.le_succ _

/-- `process_create` appends the new process; without memory for it nothing is
appended. -/
theorem create (h : ProcessTableInv k xs) {a : Allocated} (entry stackBase pdt : ℕ)
    (switchTo : Bool) (hlt : k.nextPid + 1 < word32) (haddr : a.node < word32)
    (hfresh : a.node ∉ xs) :
    ProcessTableInv (processCreateAt k a entry stackBase pdt switchTo)
      (if a.node = 0 then xs else xs ++ [a.node]) := by
  have hfill := h.fill entry stackBase pdt switchTo hlt hfresh
  have hnode : (processFill k a entry stackBase pdt switchTo).procs a.node =
      newProcess k a entry stackBase pdt := Function.update_self _ _ _
  rw [processCreateAt]
  split_ifs with h0
  · rw [h0]
    obtain ⟨hlist, hsame⟩ := processAddReadyQueue_null hfill.list hfill.address
    exact hfill.requeue hlist hsame
  · have hnew : newProcess k a entry stackBase pdt =
        { Process.zero with
          pid := k.nextPid, state := .ready, pdt := pdt, fdCount := 256, fd := a.fd
          sigHandles := a.sigHandles, cwd := k.rootIno
          r := { Registers.zero with
            cs := 27, ds := 35, es := 35, fs := 35, gs := 35
            eip := entry, useresp := stackBase, ebp := stackBase } } := by
      rw [newProcess, if_neg h0]
      rfl
    obtain ⟨hlist, hsame⟩ := processAddReadyQueue_spec hfill.list hfill.address h0 hfresh
      (by rw [Kernel.next, hnode, hnew]; rfl)
    refine hfill.snoc hlist hsame haddr ?_ ?_ ?_ ?_
    · rw [hnode, hnew]
      exact h.nextPid_pos
    · rw [hnode, hnew, processFill, Nat.mod_eq_of_lt hlt]
      exact Nat.lt_succ_self _
    · intro q hq
      have hne : q ≠ a.node := fun hqa => hfresh (hqa ▸ hq)
      have hq' : (processFill k a entry stackBase pdt switchTo).procs q = k.procs q :=
        Function.update_of_ne hne _ _
      rw [hq', hnode, hnew]
      exact h.pid_lt q hq
    · rw [hnode, hnew]
      exact .inl rfl

/-- The last process gets an earlier one as its parent. -/
theorem inherit (h : ProcessTableInv k (xs ++ [c])) (hp : p ∈ xs) :
    ProcessTableInv (processInherit k p c) (xs ++ [c]) := by
  have hlt : (k.procs p).pid < (k.procs c).pid :=
    (List.pairwise_append.mp h.sorted).2.2 p hp c (List.mem_singleton_self c)
  have hself : (processInherit k p c).procs c = (k.procs c).inherit (k.procs p) p := by
    rw [processInherit_procs, Function.update_self]
  have hother : ∀ q, q ≠ c → (processInherit k p c).procs q = k.procs q := by
    intro q hq
    rw [processInherit_procs, Function.update_of_ne hq]
  refine h.of_sublist (List.Sublist.refl _) (h.list.congr fun q _ => ?_) (fun q _ => ?_)
    (fun q hq => ?_) le_rfl
  · by_cases hq : q = c
    · rw [hq, Kernel.next, hself, Kernel.next, Process.inherit]
    · rw [Kernel.next, hother q hq, Kernel.next]
  · by_cases hq : q = c
    · rw [hq, hself, Process.inherit]
    · rw [hother q hq]
  · by_cases hqc : q = c
    · rw [hqc, hself]
      exact .inr ⟨List.mem_append_left _ hp, hlt⟩
    · rw [hother q hqc]
      exact h.parent q hq

/-- `process_fork` appends the child. -/
theorem fork (h : ProcessTableInv k xs) {a : Allocated} (pdt : ℕ) (hp : p ∈ xs)
    (hlt : k.nextPid + 1 < word32) (haddr : a.node < word32) (hfresh : a.node ∉ xs) :
    ProcessTableInv (processForkAt k a p pdt) (if a.node = 0 then xs else xs ++ [a.node]) := by
  have hcreate := h.create (k.procs p).r.eip (k.procs p).r.useresp pdt false hlt haddr hfresh
  rw [processForkAt]
  split_ifs at hcreate ⊢ with h0
  · exact hcreate
  · exact hcreate.inherit hp

/-- `process_destroy` takes the process out and gives its children to its parent. -/
theorem destroy (h : ProcessTableInv k (ys ++ p :: zs)) (hidle : p ≠ k.kernelIdleProcess)
    (exitCode : ℕ) : ProcessTableInv (processDestroy k p exitCode) (ys ++ zs) := by
  obtain ⟨hlist, hproc, -, hrest⟩ := processDestroy_spec h.list h.address hidle exitCode
  have hsub : (ys ++ zs).Sublist (ys ++ p :: zs) :=
    (List.Sublist.refl ys).append (List.sublist_cons_self p zs)
  have hstay : ∀ q ∈ ys ++ p :: zs, q ≠ p → q ∈ ys ++ zs := by
    intro q hq hqp
    simpa [hqp] using hq
  refine h.of_sublist hsub hlist (fun q _ => ?_) (fun q hq => ?_) ?_
  · obtain ⟨n, e⟩ := hproc q
    rw [e, ← reparented_pid k p (ys ++ p :: zs)]
  · obtain ⟨n, e⟩ := hproc q
    rw [e]
    dsimp only
    rw [reparented]
    split_ifs with hchild
    -- a child of `p`: the parent of `p` has a smaller pid, so it is not `p`
    · have hq₁ := (h.parent q hchild.1).resolve_left
        (hchild.2 ▸ h.list.ne_zero (List.mem_append_right ys List.mem_cons_self))
      rw [hchild.2] at hq₁
      refine (h.parent p (by simp)).imp_right fun hpp => ⟨hstay _ hpp.1 fun hself => ?_,
        hpp.2.trans hq₁.2⟩
      rw [hself] at hpp
      exact lt_irrefl _ hpp.2
    · refine (h.parent q (hsub.subset hq)).imp_right fun hpq => ⟨hstay _ hpq.1 ?_, hpq.2⟩
      exact fun hqp => hchild ⟨hsub.subset hq, hqp⟩
  · exact (congrArg Kernel.nextPid hrest :).ge

end ProcessTableInv

/-! ### Runs -/

/-- The kernel, the processes created and not yet destroyed in the order of their
creation, what the rest of the kernel holds of the heap, and the number of creations so far. -/
structure TableState where
  kernel : Kernel
  created : List ℕ
  others : List Alloc
  creations : ℕ

/-- The operations on the table, and what the rest of the kernel does between them. -/
inductive TableOp
  | create (entry stackBase pdt : ℕ) (switchTo : Bool)
  | fork (p : ℕ)
  | destroy (p exitCode : ℕ)
  | malloc (size : ℕ)
  | free (a : Alloc)
  | load (pdt : ℕ)

/-- The processes after a creation that returned `node`. -/
def TableState.add (s : TableState) (r : ℕ × Kernel) : TableState :=
  ⟨r.2, if r.1 = 0 then s.created else s.created ++ [r.1], s.others, s.creations + 1⟩

/-- There are fewer than `2 ^ 31` creations; only live processes are forked, only
live processes other than the idle one are destroyed, and the rest of the kernel frees only
what it allocated. -/
def tableStep (s : TableState) : TableOp → Option TableState
  | .create entry stackBase pdt switchTo =>
    if s.creations + 1 < 2 ^ 31 then
      (processCreate s.kernel entry stackBase pdt switchTo).map s.add
    else none
  | .fork p =>
    if s.creations + 1 < 2 ^ 31 ∧ p ∈ s.created then (processFork s.kernel p).map s.add else none
  | .destroy p exitCode =>
    if p ∈ s.created ∧ p ≠ s.kernel.kernelIdleProcess then
      some { s with kernel := processDestroy s.kernel p exitCode, created := s.created.erase p }
    else none
  | .malloc size =>
    (malloc s.kernel size).map fun r =>
      { s with kernel := r.2, others := grant r.1 (max size minMallocSize) s.others }
  | .free a =>
    if a ∈ s.others then
      some { s with kernel := free s.kernel a.ptr, others := s.others.filter (· ≠ a) }
    else none
  | .load pdt => some { s with kernel := mmuLoadPdt s.kernel pdt }

/-- The structures of the processes, and their arrays of descriptors. -/
def inUse (k : Kernel) (created : List ℕ) : List Alloc :=
  created.flatMap fun p =>
    ⟨p, sizeofProcess⟩ :: grant (k.procs p).fd (256 * sizeofFileDescriptor) []

/-- Each allocation of `process_create` finds room, or the kernel is mapped as the heap needs it
to grow. -/
def CreationMapped (k : Kernel) (used : List Alloc) : Prop :=
  AllocationMapped k sizeofProcess used ∧
    ∀ node ∈ calloc k 1 sizeofProcess,
      AllocationMapped node.2 (256 * sizeofFileDescriptor) (grant node.1 sizeofProcess used) ∧
        ∀ fd ∈ calloc node.2 256 sizeofFileDescriptor, AllocationMapped fd.2 (nsig * 4)
          (grant fd.1 (256 * sizeofFileDescriptor) (grant node.1 sizeofProcess used))

def TableState.used (s : TableState) : List Alloc := inUse s.kernel s.created ++ s.others

/-- The kernel is mapped whenever a step makes the heap grow. -/
def KernelMapped (s : TableState) : TableOp → Prop
  | .create _ _ _ _ => CreationMapped s.kernel s.used
  | .fork p => CreationMapped
      { s.kernel with mmu := (mmuClonePdt s.kernel.mmu (s.kernel.procs p).pdt).2 } s.used
  | .malloc size => AllocationMapped s.kernel (max size minMallocSize) s.used
  | .destroy _ _ | .free _ | .load _ => True

/-- The table of processes is what it should be. -/
structure TableSound (k : Kernel) (created : List ℕ) : Prop where
  list : IsList k.next k.readyQueue created
  nodup : created.Nodup
  pid_pos : ∀ p ∈ created, 0 < (k.procs p).pid ∧ (k.procs p).pid < 2 ^ 31
  pid_inj : ∀ p ∈ created, ∀ q ∈ created, (k.procs p).pid = (k.procs q).pid → p = q
  found : ∀ p ∈ created, processByPid k (k.procs p).pid = p
  only : ∀ pid, processByPid k pid ≠ 0 →
    processByPid k pid ∈ created ∧ (k.procs (processByPid k pid)).pid = pid
  parent : ∀ p ∈ created, (k.procs p).parent = 0 ∨ (k.procs p).parent ∈ created

/-! ### The memory of the processes -/

/-- The heap keeps the structures and the arrays of the processes and what the rest of the kernel
holds, and no two of these are the same. -/
structure TableMemory (k : Kernel) (created : List ℕ) (others : List Alloc) : Prop where
  keeps : ∃ held, HeapKeeps k.heap held (inUse k created ++ others)
  arrays : ∀ p ∈ created, ∀ q ∈ created, (k.procs p).fd = (k.procs q).fd →
    (k.procs p).fd = 0 ∨ p = q
  apart : ∀ c ∈ inUse k created, c ∉ others
  aligned : k.mmu.kernelEnd % 4096 = 0

section Memory
variable {k k' : Kernel} {created : List ℕ} {used others : List Alloc} {a : Allocated} {c : Alloc}
  {p : ℕ}

theorem mem_grant {ptr size : ℕ} :
    c ∈ grant ptr size used ↔ ptr ≠ 0 ∧ c = ⟨ptr, size⟩ ∨ c ∈ used := by
  rw [grant]
  split_ifs with h0
  · simp [h0]
  · simp [h0]

theorem mem_inUse : c ∈ inUse k created ↔ ∃ p ∈ created, c = ⟨p, sizeofProcess⟩ ∨
    (k.procs p).fd ≠ 0 ∧ c = ⟨(k.procs p).fd, 256 * sizeofFileDescriptor⟩ := by
  simp only [inUse, List.mem_flatMap, List.mem_cons, mem_grant, List.not_mem_nil, or_false]

/-- What `process_create` gets from its allocations is not in use. -/
structure FreshlyAllocated (k k' : Kernel) (used : List Alloc) (a : Allocated) : Prop where
  node : a.node ≠ 0 → ∀ c ∈ used, c.ptr ≠ a.node
  fd : a.fd ≠ 0 → ∀ c ∈ used, c.ptr ≠ a.fd
  keeps : ∃ held, HeapKeeps k'.heap held
    (grant a.fd (256 * sizeofFileDescriptor) (grant a.node sizeofProcess used))
  aligned : k'.mmu.kernelEnd % 4096 = 0
  procs : k'.procs = k.procs

theorem FreshlyAllocated.of_allocate {held : List Alloc} (hkeeps : HeapKeeps k.heap held used)
    (hend : k.mmu.kernelEnd % 4096 = 0) (hc : CreationMapped k used)
    (ha : processAllocate k = some (a, k')) : FreshlyAllocated k k' used a := by
  have hprocs : k'.procs = k.procs := (congrArg Kernel.procs (processAllocate_frame ha) :)
  obtain ⟨⟨node, k₁⟩, hnode, ha⟩ := Option.bind_eq_some_iff.mp ha
  obtain ⟨⟨fd, k₂⟩, hfd, ha⟩ := Option.bind_eq_some_iff.mp ha
  obtain ⟨⟨sig, k₃⟩, hsig, ha⟩ := Option.map_eq_some_iff.mp ha
  obtain ⟨rfl, rfl⟩ := Prod.mk.inj ha
  obtain ⟨hc₁, hrest⟩ := hc
  obtain ⟨hc₂, hrest⟩ := hrest _ hnode
  have hc₃ := hrest _ hfd
  have hend₁ : k₁.mmu.kernelEnd % 4096 = 0 := malloc_kernelEnd hnode ▸ hend
  have hend₂ : k₂.mmu.kernelEnd % 4096 = 0 := malloc_kernelEnd hfd ▸ hend₁
  -- the three allocations, one after the other
  have hgrant₁ : Granted k₁.heap node sizeofProcess used := malloc_granted hkeeps hend hnode hc₁
  obtain ⟨held₁, hkeeps₁⟩ := hgrant₁.keeps
  have hgrant₂ : Granted k₂.heap fd (256 * sizeofFileDescriptor) (grant node sizeofProcess used) :=
    malloc_granted hkeeps₁ hend₁ hfd hc₂
  obtain ⟨held₂, hkeeps₂⟩ := hgrant₂.keeps
  obtain ⟨held₃, hkeeps₃⟩ := (malloc_granted hkeeps₂ hend₂ hsig hc₃).keeps
  refine ⟨hgrant₁.fresh, fun h0 c hc => ?_, ⟨held₃, hkeeps₃.mono fun a ha => ?_⟩,
    malloc_kernelEnd hsig ▸ hend₂, hprocs⟩
  · exact hgrant₂.fresh h0 c (mem_grant.mpr (.inr hc))
  · exact mem_grant.mpr (.inr ha)

/-- The memory of the processes depends on the heap and the arrays of the processes. -/
theorem FreshlyAllocated.memory (h : TableMemory k created others)
    (ha : FreshlyAllocated k k' (inUse k created ++ others) a)
    {k'' : Kernel} (hheap : k''.heap = k'.heap) (hmmu : k''.mmu = k'.mmu)
    (hold : ∀ q, q ≠ a.node → (k''.procs q).fd = (k'.procs q).fd)
    (hnew : (k''.procs a.node).fd = a.fd) (hnull : 0 ∉ created) :
    TableMemory k'' (if a.node = 0 then created else created ++ [a.node]) others := by
  obtain ⟨held, hkeeps⟩ := ha.keeps
  have hused : ∀ q ∈ created, (⟨q, sizeofProcess⟩ : Alloc) ∈ inUse k created ++ others :=
    fun q hq => List.mem_append_left _ (mem_inUse.mpr ⟨q, hq, .inl rfl⟩)
  have hfresh : ∀ q ∈ created, q ≠ a.node := by
    rintro q hq rfl
    exact ha.node (fun h0 => hnull (h0 ▸ hq)) _ (hused _ hq) rfl
  have hfd : ∀ q ∈ created, (k''.procs q).fd = (k.procs q).fd := fun q hq => by
    rw [hold q (hfresh q hq), ha.procs]
  have hafd : ∀ q ∈ created, a.fd ≠ 0 → (k.procs q).fd ≠ a.fd := fun q hq h0 heq =>
    ha.fd h0 _ (List.mem_append_left _ (mem_inUse.mpr ⟨q, hq, .inr ⟨heq ▸ h0, rfl⟩⟩)) heq
  have hcases : ∀ q ∈ (if a.node = 0 then created else created ++ [a.node]),
      q ∈ created ∨ a.node ≠ 0 ∧ q = a.node := by
    intro q hq
    split_ifs at hq with h0
    · exact .inl hq
    · exact (List.mem_append.mp hq).imp_right fun hlast => ⟨h0, List.mem_singleton.mp hlast⟩
  -- what is in use now was in use or is new
  have hall : ∀ c ∈ inUse k'' (if a.node = 0 then created else created ++ [a.node]),
      c ∈ inUse k created ∨ a.node ≠ 0 ∧ c = ⟨a.node, sizeofProcess⟩ ∨
        a.fd ≠ 0 ∧ c = ⟨a.fd, 256 * sizeofFileDescriptor⟩ := by
    intro c hc
    obtain ⟨q, hq, hc⟩ := mem_inUse.mp hc
    rcases hcases q hq with hq | ⟨h0, rfl⟩
    · rw [hfd q hq] at hc
      exact .inl (mem_inUse.mpr ⟨q, hq, hc⟩)
    · rw [hnew] at hc
      exact .inr (hc.imp_left fun hc => ⟨h0, hc⟩)
  refine ⟨⟨held, hheap ▸ hkeeps.mono fun c hc => ?_⟩, fun p hp q hq hpq => ?_, fun c hc hother => ?_,
    hmmu ▸ ha.aligned⟩
  · rw [mem_grant, mem_grant, List.mem_append]
    rcases List.mem_append.mp hc with hc | hc
    · rcases hall c hc with hc | hc | hc
      · exact .inr (.inr (.inl hc))
      · exact .inr (.inl hc)
      · exact .inl hc
    · exact .inr (.inr (.inr hc))
  · rcases hcases p hp with hp | ⟨-, rfl⟩ <;> rcases hcases q hq with hq | ⟨-, rfl⟩
    · rw [hfd p hp, hfd q hq] at hpq
      rw [hfd p hp]
      exact h.arrays p hp q hq hpq
    · rw [hfd p hp, hnew] at hpq
      rw [hfd p hp, hpq]
      exact .inl (by_contra fun h0 => hafd p hp h0 hpq)
    · rw [hfd q hq, hnew] at hpq
      rw [hnew]
      exact .inl (by_contra fun h0 => hafd q hq h0 hpq.symm)
    · exact .inr rfl
  · have hin := List.mem_append_right (inUse k created) hother
    rcases hall c hc with hc | ⟨h0, rfl⟩ | ⟨h0, rfl⟩
    · exact h.apart c hc hother
    · exact ha.node h0 _ hin rfl
    · exact ha.fd h0 _ hin rfl

theorem processCreateAt_same (k : Kernel) (a : Allocated) (entry stackBase pdt : ℕ)
    (switchTo : Bool) : SameButQueue (processFill k a entry stackBase pdt switchTo)
      (processCreateAt k a entry stackBase pdt switchTo) :=
  processAddReadyQueue_same _ _

theorem processCreateAt_fd (k : Kernel) (a : Allocated) (entry stackBase pdt : ℕ)
    (switchTo : Bool) (q : ℕ) : ((processCreateAt k a entry stackBase pdt switchTo).procs q).fd =
      if q = a.node then a.fd else (k.procs q).fd := by
  rw [(processCreateAt_same k a entry stackBase pdt switchTo).field_eq Process.fd fun _ _ => rfl,
    processFill]
  dsimp only
  rw [Function.update_apply]
  split_ifs <;> rfl

theorem TableMemory.create (h : TableMemory k created others)
    (ha : FreshlyAllocated k k' (inUse k created ++ others) a)
    (hnull : 0 ∉ created) (entry stackBase pdt : ℕ) (switchTo : Bool) :
    TableMemory (processCreateAt k' a entry stackBase pdt switchTo)
      (if a.node = 0 then created else created ++ [a.node]) others := by
  have hrest := (processCreateAt_same k' a entry stackBase pdt switchTo).rest
  refine ha.memory h ?_ ?_ (fun q hq => ?_) ?_ hnull
  · exact (congrArg Kernel.heap hrest :)
  · exact (congrArg Kernel.mmu hrest :)
  · rw [processCreateAt_fd, if_neg hq]
  · rw [processCreateAt_fd, if_pos rfl]

/-- Only the heap, the arrays and `kernel_end` matter. -/
theorem TableMemory.congr (h : TableMemory k created others) (hheap : k'.heap = k.heap)
    (hend : k'.mmu.kernelEnd = k.mmu.kernelEnd) (hfd : ∀ q, (k'.procs q).fd = (k.procs q).fd) :
    TableMemory k' created others := by
  have hsame : inUse k' created = inUse k created := by simp only [inUse, hfd]
  refine ⟨?_, fun p hp q hq hpq => ?_, hsame ▸ h.apart, hend ▸ h.aligned⟩
  · rw [hheap, hsame]
    exact h.keeps
  · rw [hfd p, hfd q] at hpq
    rw [hfd p]
    exact h.arrays p hp q hq hpq

theorem TableMemory.malloc {size ptr : ℕ} (h : TableMemory k created others)
    (hc : AllocationMapped k (max size minMallocSize) (inUse k created ++ others))
    (hm : DosKernel.malloc k size = some (ptr, k')) :
    TableMemory k' created (grant ptr (max size minMallocSize) others) := by
  obtain ⟨held, hkeeps⟩ := h.keeps
  have hgrant := malloc_granted hkeeps h.aligned hm hc
  obtain ⟨held', hkeeps'⟩ := hgrant.keeps
  have hprocs : k'.procs = k.procs := (congrArg Kernel.procs (malloc_frame hm) :)
  have hsame : inUse k' created = inUse k created := by simp only [inUse, hprocs]
  refine ⟨⟨held', hkeeps'.mono fun c hc => ?_⟩, ?_, fun c hc hother => ?_,
    malloc_kernelEnd hm ▸ h.aligned⟩
  · rw [hsame, List.mem_append, mem_grant] at hc
    rw [mem_grant, List.mem_append]
    tauto
  · rw [hprocs]
    exact h.arrays
  · rw [hsame] at hc
    rcases mem_grant.mp hother with ⟨h0, rfl⟩ | hother
    · exact hgrant.fresh h0 _ (List.mem_append_left _ hc) rfl
    · exact h.apart c hc hother

theorem TableMemory.fork (h : TableMemory k created others)
    (ha : FreshlyAllocated k k' (inUse k created ++ others) a)
    (hnull : 0 ∉ created) (p pdt : ℕ) : TableMemory (processForkAt k' a p pdt)
      (if a.node = 0 then created else created ++ [a.node]) others := by
  have hcreate := h.create ha hnull (k'.procs p).r.eip (k'.procs p).r.useresp pdt false
  rw [processForkAt]
  split_ifs at hcreate ⊢ with h0
  · exact hcreate
  · refine hcreate.congr rfl rfl fun q => ?_
    rw [processInherit_procs, Function.update_apply]
    split_ifs with hq
    · rw [hq]
      rfl
    · rfl

theorem free_heap (k : Kernel) (ptr : ℕ) :
    (free k ptr).heap = if ptr = 0 then k.heap else (heapFree k.heap ptr).2 := by
  rw [free]
  split_ifs <;> rfl

theorem TableMemory.free (h : TableMemory k created others) (hc : c ∈ others) :
    TableMemory (DosKernel.free k c.ptr) created (others.filter (· ≠ c)) := by
  obtain ⟨held, hkeeps⟩ := h.keeps
  have hsame : inUse (DosKernel.free k c.ptr) created = inUse k created := by
    simp only [inUse, free_procs]
  have hrest : ∀ d ∈ inUse k created ++ others.filter (· ≠ c),
      d ∈ inUse k created ++ others ∧ d ≠ c := by
    intro d hd
    rcases List.mem_append.mp hd with hd | hd
    · exact ⟨List.mem_append_left _ hd, fun heq => h.apart d hd (heq ▸ hc)⟩
    · rw [List.mem_filter, decide_eq_true_eq] at hd
      exact ⟨List.mem_append_right _ hd.1, hd.2⟩
  refine ⟨?_, ?_, fun d hd hother => ?_, ?_⟩
  · rw [hsame, free_heap]
    split_ifs
    · exact ⟨held, hkeeps.mono fun d hd => (hrest d hd).1⟩
    · exact hkeeps.free (List.mem_append_right _ hc) hrest
  · rw [free_procs]
    exact h.arrays
  · rw [hsame] at hd
    exact h.apart d hd (List.mem_filter.mp hother).1
  · rw [free_mmu]
    exact h.aligned

/-- `process_destroy` frees the array and the structure. -/
theorem processDestroy_heap (hidle : p ≠ k.kernelIdleProcess) (hp : p ≠ 0) (exitCode : ℕ) :
    (processDestroy k p exitCode).heap = (heapFree (if (k.procs p).fd = 0 then k.heap
      else (heapFree k.heap (k.procs p).fd).2) p).2 := by
  have hremove : ∀ k : Kernel, (processRemoveReadyQueue k p).heap = k.heap := fun k =>
    (congrArg Kernel.heap (removeFrom_same k p 0 _).rest :)
  rw [processDestroy, if_neg hidle, free_heap, if_neg hp, hremove, reparentChildren_eq, processRelease]
  dsimp only
  rw [free_heap]
  rfl

/-- What is in use without the process `p`. -/
theorem TableMemory.remaining {ys zs : List ℕ} (h : TableMemory k (ys ++ p :: zs) others)
    (hnodup : (ys ++ p :: zs).Nodup) (hfd : ∀ q, (k'.procs q).fd = (k.procs q).fd) :
    ∀ c ∈ inUse k' (ys ++ zs) ++ others, c ∈ inUse k (ys ++ p :: zs) ++ others ∧
      c ≠ ⟨p, sizeofProcess⟩ ∧
      ((k.procs p).fd ≠ 0 → c ≠ ⟨(k.procs p).fd, 256 * sizeofFileDescriptor⟩) := by
  have hp : p ∈ ys ++ p :: zs := List.mem_append_right ys List.mem_cons_self
  have hsizes : sizeofProcess ≠ 256 * sizeofFileDescriptor := by decide
  intro c hc
  rcases List.mem_append.mp hc with hc | hc
  · obtain ⟨q, hq, hc⟩ := mem_inUse.mp hc
    obtain ⟨hq, hqp⟩ := mem_of_mem_rest hnodup hq
    rw [hfd] at hc
    refine ⟨List.mem_append_left _ (mem_inUse.mpr ⟨q, hq, hc⟩), ?_⟩
    rcases hc with rfl | ⟨h0, rfl⟩
    · exact ⟨by simp [hqp], fun _ => by simp [hsizes]⟩
    · have hne : (k.procs q).fd ≠ (k.procs p).fd := fun heq =>
        (h.arrays q hq p hp heq).elim h0 hqp
      exact ⟨by simp [hsizes.symm], fun _ => by simp [hne]⟩
  · refine ⟨List.mem_append_right _ hc, fun heq => ?_, fun h0 heq => ?_⟩
    · exact h.apart _ (mem_inUse.mpr ⟨p, hp, .inl rfl⟩) (heq ▸ hc)
    · exact h.apart _ (mem_inUse.mpr ⟨p, hp, .inr ⟨h0, rfl⟩⟩) (heq ▸ hc)

/-- The array is freed and then the structure. -/
theorem TableMemory.freed {ys zs : List ℕ} (h : TableMemory k (ys ++ p :: zs) others)
    (hnodup : (ys ++ p :: zs).Nodup) (hfd : ∀ q, (k'.procs q).fd = (k.procs q).fd) :
    ∃ held, HeapKeeps (heapFree (if (k.procs p).fd = 0 then k.heap
      else (heapFree k.heap (k.procs p).fd).2) p).2 held (inUse k' (ys ++ zs) ++ others) := by
  have hp : p ∈ ys ++ p :: zs := List.mem_append_right ys List.mem_cons_self
  have hrest := h.remaining hnodup hfd
  obtain ⟨held, hkeeps⟩ := h.keeps
  generalize inUse k' (ys ++ zs) ++ others = left at hrest
  have hnode : (⟨p, sizeofProcess⟩ : Alloc) ∈ inUse k (ys ++ p :: zs) ++ others :=
    List.mem_append_left _ (mem_inUse.mpr ⟨p, hp, .inl rfl⟩)
  obtain ⟨held₁, hkeeps₁⟩ : ∃ held₁, HeapKeeps (if (k.procs p).fd = 0 then k.heap
      else (heapFree k.heap (k.procs p).fd).2) held₁ (⟨p, sizeofProcess⟩ :: left) := by
    split_ifs with h0
    · exact ⟨held, hkeeps.mono (List.cons_subset.mpr ⟨hnode, fun c hc => (hrest c hc).1⟩)⟩
    · refine hkeeps.free (a := ⟨(k.procs p).fd, 256 * sizeofFileDescriptor⟩)
        (List.mem_append_left _ (mem_inUse.mpr ⟨p, hp, .inr ⟨h0, rfl⟩⟩)) fun c hc => ?_
      rcases List.mem_cons.mp hc with rfl | hc
      · exact ⟨hnode, by simp [sizeofProcess, sizeofFileDescriptor]⟩
      · exact ⟨(hrest c hc).1, (hrest c hc).2.2 h0⟩
  exact hkeeps₁.free List.mem_cons_self fun c hc => ⟨List.mem_cons_of_mem _ hc, (hrest c hc).2.1⟩

theorem TableMemory.destroy {ys zs : List ℕ} (h : TableMemory k (ys ++ p :: zs) others)
    (hinv : ProcessTableInv k (ys ++ p :: zs)) (hidle : p ≠ k.kernelIdleProcess) (exitCode : ℕ) :
    TableMemory (processDestroy k p exitCode) (ys ++ zs) others := by
  have hdestroyed := processDestroy_spec hinv.list hinv.address hidle exitCode
  have hnodup := hinv.list.nodup
  have hp0 : p ≠ 0 := hinv.list.ne_zero (List.mem_append_right ys List.mem_cons_self)
  have hfd : ∀ q, ((processDestroy k p exitCode).procs q).fd = (k.procs q).fd :=
    hdestroyed.field_eq Process.fd fun _ _ _ _ _ => rfl
  refine ⟨?_, fun x hx y hy hxy => ?_, fun c hc => ?_, ?_⟩
  · rw [processDestroy_heap hidle hp0]
    exact h.freed hnodup hfd
  · rw [hfd x, hfd y] at hxy
    rw [hfd x]
    exact h.arrays x (mem_of_mem_rest hnodup hx).1 y (mem_of_mem_rest hnodup hy).1 hxy
  · obtain ⟨q, hq, hc⟩ := mem_inUse.mp hc
    rw [hfd] at hc
    exact h.apart c (mem_inUse.mpr ⟨q, (mem_of_mem_rest hnodup hq).1, hc⟩)
  · rw [hdestroyed.mmu, releaseAddressSpace_kernelEnd]
    exact h.aligned

end Memory

section Runs
variable {s t : TableState} {k k' : Kernel} {xs : List ℕ}

theorem ProcessTableInv.pid_inj (h : ProcessTableInv k xs) {p q : ℕ} (hp : p ∈ xs) (hq : q ∈ xs)
    (hpq : (k.procs p).pid = (k.procs q).pid) : p = q := by
  have hnodup : (xs.map fun p => (k.procs p).pid).Nodup :=
    List.pairwise_map.mpr (h.sorted.imp ne_of_lt)
  exact List.inj_on_of_nodup_map hnodup hp hq hpq

theorem ProcessTableInv.sound (h : ProcessTableInv k xs) (hpid : k.nextPid ≤ 2 ^ 31) :
    TableSound k xs := by
  have hnodes := nodes_eq_of_isList h.list h.address
  refine ⟨h.list, h.list.nodup, fun p hp => ⟨h.pid_pos p hp, (h.pid_lt p hp).trans_le hpid⟩,
    fun p hp q hq => h.pid_inj hp hq, fun p hp => ?_, fun pid hne => ?_,
    fun p hp => (h.parent p hp).imp_right And.left⟩
  · rw [processByPid, hnodes]
    obtain ⟨q, hq⟩ := Option.isSome_iff_exists.mp (List.find?_isSome.mpr
      (⟨p, hp, by simp⟩ : ∃ x ∈ xs, decide ((k.procs x).pid = (k.procs p).pid) = true))
    rw [hq, Option.getD_some]
    exact h.pid_inj (List.mem_of_find?_eq_some hq) hp (by simpa using List.find?_some hq)
  · rw [processByPid, hnodes] at hne ⊢
    cases hfind : xs.find? fun node => decide ((k.procs node).pid = pid) with
    | none =>
      rw [hfind] at hne
      exact absurd rfl hne
    | some q =>
      rw [Option.getD_some]
      exact ⟨List.mem_of_find?_eq_some hfind, by simpa using List.find?_some hfind⟩

/-- What a run keeps: the two invariants, and the next pid counts the creations. -/
structure TableRunInv (s : TableState) : Prop where
  table : ProcessTableInv s.kernel s.created
  memory : TableMemory s.kernel s.created s.others
  nextPid : s.kernel.nextPid = s.creations + 1
  creations : s.creations < 2 ^ 31

theorem processCreateAt_nextPid (k : Kernel) (a : Allocated) (entry stackBase pdt : ℕ)
    (switchTo : Bool) : (processCreateAt k a entry stackBase pdt switchTo).nextPid =
      (k.nextPid + 1) % word32 := by
  rw [processCreateAt, processAddReadyQueue]
  split_ifs
  · rfl
  · cases (Kernel.nodes _ _).getLast? <;> rfl

theorem processForkAt_nextPid (k : Kernel) (a : Allocated) (p pdt : ℕ) :
    (processForkAt k a p pdt).nextPid = (k.nextPid + 1) % word32 := by
  rw [processForkAt]
  split_ifs
  · exact processCreateAt_nextPid _ _ _ _ _ _
  · exact processCreateAt_nextPid _ _ _ _ _ _

theorem TableRunInv.add {a : Allocated} (h : TableRunInv s) (hlt : s.creations + 1 < 2 ^ 31)
    (hnext : k.nextPid = (s.kernel.nextPid + 1) % word32)
    (hinv : ProcessTableInv k (if a.node = 0 then s.created else s.created ++ [a.node]))
    (hmem : TableMemory k (if a.node = 0 then s.created else s.created ++ [a.node]) s.others) :
    TableRunInv (s.add (a.node, k)) := by
  refine ⟨hinv, hmem, ?_, hlt⟩
  rw [TableState.add, hnext, h.nextPid, Nat.mod_eq_of_lt]
  simp only [word32]
  omega

theorem TableRunInv.next_lt (h : TableRunInv s) (hlt : s.creations + 1 < 2 ^ 31) :
    s.kernel.nextPid + 1 < word32 := by
  rw [h.nextPid, word32]
  omega

/-- The structure of a new process is none of those in use. -/
theorem TableRunInv.node_not_mem {a : Allocated} (h : TableRunInv s)
    (ha : FreshlyAllocated k k' s.used a) : a.node ∉ s.created := by
  intro hmem
  have hused : (⟨a.node, sizeofProcess⟩ : Alloc) ∈ s.used :=
    List.mem_append_left _ (mem_inUse.mpr ⟨a.node, hmem, .inl rfl⟩)
  exact ha.node (h.table.list.ne_zero hmem) _ hused rfl

theorem TableRunInv.create {entry stackBase pdt : ℕ} {switchTo : Bool} (h : TableRunInv s)
    (hc : CreationMapped s.kernel s.used)
    (hstep : tableStep s (.create entry stackBase pdt switchTo) = some t) : TableRunInv t := by
  rw [tableStep] at hstep
  split_ifs at hstep with hlt
  obtain ⟨r, hr, rfl⟩ := Option.map_eq_some_iff.mp hstep
  obtain ⟨⟨a, k⟩, ha, rfl⟩ := Option.map_eq_some_iff.mp hr
  have hnext : k.nextPid = s.kernel.nextPid :=
    (congrArg Kernel.nextPid (processAllocate_frame ha) :)
  obtain ⟨held, hkeeps⟩ := h.memory.keeps
  have hfresh := FreshlyAllocated.of_allocate hkeeps h.memory.aligned hc ha
  have hnull : 0 ∉ s.created := fun hmem => h.table.list.ne_zero hmem rfl
  refine h.add hlt ?_ ((h.table.allocate ha).create entry stackBase pdt switchTo
    (hnext ▸ h.next_lt hlt) (processAllocate_node_lt ha) (h.node_not_mem hfresh))
    (h.memory.create hfresh hnull entry stackBase pdt switchTo)
  rw [processCreateAt_nextPid, hnext]

theorem TableRunInv.fork {p : ℕ} (h : TableRunInv s) (hc : KernelMapped s (.fork p))
    (hstep : tableStep s (.fork p) = some t) : TableRunInv t := by
  rw [tableStep] at hstep
  split_ifs at hstep with hp
  obtain ⟨r, hr, rfl⟩ := Option.map_eq_some_iff.mp hstep
  obtain ⟨⟨a, k⟩, ha, rfl⟩ := Option.map_eq_some_iff.mp hr
  have hnext : k.nextPid = s.kernel.nextPid :=
    (congrArg Kernel.nextPid (processAllocate_frame ha) :)
  -- the copy of the directory comes before the structures
  have hclone : ProcessTableInv { s.kernel with
      mmu := (mmuClonePdt s.kernel.mmu (s.kernel.procs p).pdt).2 } s.created :=
    h.table.of_frame rfl
  have hmem : TableMemory { s.kernel with
      mmu := (mmuClonePdt s.kernel.mmu (s.kernel.procs p).pdt).2 } s.created s.others :=
    h.memory.congr rfl (mmuClonePdt_kernelEnd _ _) fun _ => rfl
  obtain ⟨held, hkeeps⟩ := hmem.keeps
  have hfresh := FreshlyAllocated.of_allocate hkeeps hmem.aligned hc ha
  have hnull : 0 ∉ s.created := fun hmem => h.table.list.ne_zero hmem rfl
  refine h.add hp.1 ?_ ((hclone.allocate ha).fork _ hp.2
    (hnext ▸ h.next_lt hp.1) (processAllocate_node_lt ha) (h.node_not_mem hfresh))
    (hmem.fork hfresh hnull p _)
  rw [processForkAt_nextPid, hnext]

theorem TableRunInv.destroy {p exitCode : ℕ} (h : TableRunInv s)
    (hstep : tableStep s (.destroy p exitCode) = some t) : TableRunInv t := by
  rw [tableStep] at hstep
  split_ifs at hstep with hp
  obtain rfl := Option.some.inj hstep
  obtain ⟨ys, zs, hxs⟩ := List.append_of_mem hp.1
  have hinv := h.table
  have hmem := h.memory
  rw [hxs] at hinv hmem
  have herase : s.created.erase p = ys ++ zs := by
    rw [hxs, erase_eq_rest hinv.list.nodup]
  refine ⟨?_, ?_, ?_, h.creations⟩
  · rw [herase]
    exact hinv.destroy hp.2 exitCode
  · rw [herase]
    exact hmem.destroy hinv hp.2 exitCode
  · have hrest := (processDestroy_spec hinv.list hinv.address hp.2 exitCode).rest
    exact (congrArg Kernel.nextPid hrest :).trans h.nextPid

theorem TableRunInv.step {o : TableOp} (h : TableRunInv s) (hc : KernelMapped s o)
    (hstep : tableStep s o = some t) : TableRunInv t := by
  cases o with
  | create entry stackBase pdt switchTo => exact h.create hc hstep
  | fork p => exact h.fork hc hstep
  | destroy p exitCode => exact h.destroy hstep
  | malloc size =>
    obtain ⟨⟨ptr, k⟩, hm, rfl⟩ := Option.map_eq_some_iff.mp hstep
    have hnext : k.nextPid = s.kernel.nextPid := (congrArg Kernel.nextPid (malloc_frame hm) :)
    exact ⟨h.table.malloc hm, h.memory.malloc hc hm, hnext.trans h.nextPid, h.creations⟩
  | free a =>
    rw [tableStep] at hstep
    split_ifs at hstep with ha
    obtain rfl := Option.some.inj hstep
    have hframe := free_frame s.kernel a.ptr
    refine ⟨h.table.of_frame ?_, h.memory.free ha, ?_, h.creations⟩
    · rw [free]
      split_ifs <;> rfl
    · exact (congrArg Kernel.nextPid hframe :).trans h.nextPid
  | load pdt =>
    obtain rfl := Option.some.inj hstep
    refine ⟨h.table.of_frame ?_, h.memory.congr ?_ ?_ fun q => ?_, ?_, h.creations⟩
    all_goals rw [mmuLoadPdt]
    all_goals split_ifs
    all_goals first | rfl | exact h.nextPid

end Runs

/-! ### Runs with room -/

/-- The cells that the structure, the array and the signal handlers of a process take. -/
def processCells : ℕ := 35 + 10688 + 8

section Room
variable {k k₁ : Kernel} {s : TableState} {l r : Heap} {addr size x node : ℕ}

/-- Behind the first allocation of `process_create`. -/
theorem processAllocate_behind (hnode : calloc k 1 sizeofProcess = some (node, k₁))
    (h : HeapFilledTo k₁.heap l addr size x r) (hx : 2 ≤ x)
    (hroom : 16 * (x + 10688 + 8) ≤ size - 20) (htop : addr + size ≤ word32) :
    ∃ heap fd sig, processAllocate k = some (⟨node, fd, sig⟩, { k₁ with heap := heap }) ∧
      HeapFilledTo heap l addr size (x + 10688 + 8) r ∧
      ∀ used, AllocationMapped k sizeofProcess used → CreationMapped k used := by
  have hfd : divUp (256 * sizeofFileDescriptor) 16 = 10688 := rfl
  have hsig : divUp (nsig * 4) 16 = 8 := rfl
  obtain ⟨heap₂, hfd₂, hfilled₂, hmapped₂⟩ := h.malloc (n := 256 * sizeofFileDescriptor) (by decide)
    hx (by omega) htop
  obtain ⟨heap₃, hsig₃, hfilled₃, hmapped₃⟩ := HeapFilledTo.malloc (k := { k₁ with heap := heap₂ })
    (n := nsig * 4) hfilled₂ (by decide) (by omega) (by omega) htop
  rw [hfd, hsig] at hfilled₃
  have hcalloc₂ : calloc k₁ 256 sizeofFileDescriptor = _ := hfd₂
  have hcalloc₃ : calloc { k₁ with heap := heap₂ } nsig 4 = _ := hsig₃
  refine ⟨heap₃, addr + 20 + 16 * x, addr + 20 + 16 * (x + 10688), ?_, hfilled₃,
    fun used hmapped₁ => ⟨hmapped₁, ?_⟩⟩
  · rw [processAllocate, hnode, Option.bind_some, hcalloc₂, Option.bind_some, hcalloc₃]
    rfl
  · intro r hr
    obtain rfl := Option.some.inj (hnode.symm.trans hr)
    refine ⟨hmapped₂ _, fun fd hfd => ?_⟩
    obtain rfl := Option.some.inj (hcalloc₂.symm.trans hfd)
    exact hmapped₃ _

theorem processAllocate_filled (h : HeapFilledTo k.heap l addr size x r) (hx : 2 ≤ x)
    (hroom : 16 * (x + processCells) ≤ size - 20) (htop : addr + size ≤ word32) :
    ∃ heap fd sig,
      processAllocate k = some (⟨addr + 20 + 16 * x, fd, sig⟩, { k with heap := heap }) ∧
      HeapFilledTo heap l addr size (x + processCells) r ∧ ∀ used, CreationMapped k used := by
  have hcells : processCells = 35 + 10688 + 8 := rfl
  have hnode : divUp sizeofProcess 16 = 35 := rfl
  obtain ⟨heap₁, hnode₁, hfilled₁, hmapped₁⟩ := h.malloc (n := sizeofProcess) (by decide) hx
    (by omega) htop
  obtain ⟨heap, fd, sig, ha, hfilled, hmapped⟩ := processAllocate_behind hnode₁ hfilled₁ (by omega)
    (by omega) htop
  refine ⟨heap, fd, sig, ha, ?_, fun used => hmapped used (hmapped₁ used)⟩
  rwa [hnode, Nat.add_assoc x, Nat.add_assoc x] at hfilled

end Room

end DosKernel
