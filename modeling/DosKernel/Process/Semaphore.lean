import DosKernel.Process.Queue
import DosKernel.Process.Switching

/-! Semaphores. A process that cannot pass is taken out of the ready queue and put at the
end of the queue of the semaphore; both queues are linked through the same field. -/

namespace DosKernel

open Lib

structure Semaphore where
  count : BitVec 32
  queue : ℕ

def semaphoreQueuePush (k : Kernel) (s : Semaphore) (p : ℕ) : Kernel × Semaphore :=
  if s.queue = 0 then (k.setProc p ({ · with next := 0 }), { s with queue := p })
  else
    ((k.nodes s.queue).getLast?.elim k fun q =>
      (k.setProc q ({ · with next := p })).setProc p ({ · with next := 0 }), s)

/-- `semaphore_queue_pop`. The popped process keeps its `next`. -/
def semaphoreQueuePop (k : Kernel) (s : Semaphore) : ℕ × Semaphore :=
  if s.queue = 0 then (0, s) else (s.queue, { s with queue := (k.procs s.queue).next })

def semaphoreDown (k : Kernel) (s : Semaphore) (p : ℕ) : Kernel × Semaphore :=
  if 0 < s.count.toInt then (k, { s with count := s.count - 1 })
  else
    semaphoreQueuePush (processRemoveReadyQueue (k.setProc p ({ · with state := .waiting })) p) s p

def semaphoreUp (k : Kernel) (s : Semaphore) : Kernel × Semaphore :=
  let r := semaphoreQueuePop k { s with count := s.count + 1 }
  if r.1 = 0 then (k, r.2)
  else (processAddReadyQueue (k.setProc r.1 ({ · with state := .ready })) r.1, r.2)

/-! ### Tokens -/

/-- A semaphore with its history: the number of ups, of downs that passed at once and of
blocked downs that an up has ended, and the processes blocked now. -/
structure TokenState where
  kernel : Kernel
  sem : Semaphore
  ups : ℕ
  passed : ℕ
  woken : ℕ
  blocked : List ℕ

inductive TokenOp
  | down (p : ℕ)
  | up

def TokenState.completed (s : TokenState) : ℕ := s.passed + s.woken

def tokenStep (s : TokenState) : TokenOp → Option TokenState
  | .down p =>
    let r := semaphoreDown s.kernel s.sem p
    if 0 < s.sem.count.toInt then
      some { s with kernel := r.1, sem := r.2, passed := s.passed + 1 }
    else some { s with kernel := r.1, sem := r.2, blocked := p :: s.blocked }
  | .up =>
    let r := semaphoreUp s.kernel s.sem
    let p := (semaphoreQueuePop s.kernel s.sem).1
    if p ∈ s.blocked then
      some { s with
        kernel := r.1, sem := r.2, ups := s.ups + 1, woken := s.woken + 1
        blocked := s.blocked.erase p }
    else some { s with kernel := r.1, sem := r.2, ups := s.ups + 1 }

/-! The order of the downs and ups of a run. -/

def TokenOp.ups (os : List TokenOp) : ℕ := os.countP fun | .up => true | .down _ => false

def TokenOp.downs (os : List TokenOp) : ℕ := os.countP fun | .up => false | .down _ => true

open TokenOp (ups downs)

/-- One of the ups came when there had been more downs than ups. -/
def Served (os : List TokenOp) : Prop := ∃ pre post, os = pre ++ .up :: post ∧ ups pre < downs pre

/-- Behind such an up a down comes only when there have been more ups than downs. The count
of the ups does not reach `2 ^ 31`. -/
def InOrder (before : List TokenOp) : TokenOp → Prop
  | .down _ => Served before → downs before < ups before
  | .up => ups before + 1 < 2 ^ 31

section Order
variable {os : List TokenOp} {p : ℕ}

theorem ups_down : ups (os ++ [.down p]) = ups os := by simp [ups]

theorem ups_up : ups (os ++ [.up]) = ups os + 1 := by simp [ups]

theorem downs_down : downs (os ++ [.down p]) = downs os + 1 := by simp [downs]

theorem downs_up : downs (os ++ [.up]) = downs os := by simp [downs]

theorem not_served_nil : ¬ Served [] := by
  rintro ⟨pre, post, h, -⟩
  simp at h

theorem served_concat {o : TokenOp} :
    Served (os ++ [o]) ↔ Served os ∨ o = .up ∧ ups os < downs os := by
  constructor
  · rintro ⟨pre, post, h, hlt⟩
    rcases List.eq_nil_or_concat post with rfl | ⟨post, o', rfl⟩
    · obtain ⟨rfl, hlast⟩ := List.append_inj' h rfl
      exact .inr ⟨List.singleton_inj.mp hlast, hlt⟩
    · have hsplit : os ++ [o] = (pre ++ .up :: post) ++ [o'] := by simpa using h
      exact .inl ⟨pre, post, (List.append_inj' hsplit rfl).1, hlt⟩
  · rintro (⟨pre, post, rfl, hlt⟩ | ⟨rfl, hlt⟩)
    · exact ⟨pre, post ++ [o], by simp, hlt⟩
    · exact ⟨os, [], rfl, hlt⟩

theorem served_down : Served (os ++ [.down p]) ↔ Served os := by
  rw [served_concat]
  simp

end Order

/-- What a run has come to after the operations `os`. The count is the number of ups less that
of the downs that passed; before an up is `Served` nobody was woken, and somebody is blocked
only while there are more downs than ups. -/
structure TokenInv (s : TokenState) (os : List TokenOp) : Prop where
  ups_eq : s.ups = ups os
  downs_eq : s.completed + s.blocked.length = downs os
  few : s.ups < 2 ^ 31
  passed : s.passed ≤ s.ups
  count : s.sem.count = BitVec.ofNat 32 (s.ups - s.passed)
  start : ¬ Served os → s.woken = 0 ∧ (s.blocked ≠ [] → s.ups < downs os)
  completed : s.completed ≤ s.ups

theorem semaphoreDown_count {k : Kernel} {s : Semaphore} {p : ℕ} :
    (semaphoreDown k s p).2.count = if 0 < s.count.toInt then s.count - 1 else s.count := by
  rw [semaphoreDown]
  split_ifs
  · rfl
  · rw [semaphoreQueuePush]
    split_ifs <;> rfl

theorem semaphoreUp_count {k : Kernel} {s : Semaphore} :
    (semaphoreUp k s).2.count = s.count + 1 := by
  simp only [semaphoreUp, semaphoreQueuePop]
  split_ifs <;> rfl

namespace TokenInv
variable {s t : TokenState} {os : List TokenOp} {o : TokenOp} {p : ℕ}

theorem count_pos (h : TokenInv s os) : 0 < s.sem.count.toInt ↔ s.passed < s.ups := by
  have hfew := h.few
  have hpassed := h.passed
  rw [h.count, BitVec.toInt_ofNat', Int.bmod_def]
  split_ifs <;> push_cast at * <;> omega

/-- Until somebody is woken the downs that have completed are those that passed. -/
theorem completed_lt (h : TokenInv s os) (hc : InOrder os (.down p)) (hlt : s.passed < s.ups) :
    s.completed < s.ups := by
  have hups := h.ups_eq
  have hdowns := h.downs_eq
  by_cases hserved : Served os
  · have hmore := hc hserved
    omega
  · have hwoken := (h.start hserved).1
    rwa [TokenState.completed, hwoken]

theorem pass (h : TokenInv s os) (hc : InOrder os (.down p)) (hcount : 0 < s.sem.count.toInt)
    (k : Kernel) : TokenInv { s with
      kernel := k, sem := (semaphoreDown s.kernel s.sem p).2, passed := s.passed + 1 }
      (os ++ [.down p]) := by
  have hlt := h.count_pos.mp hcount
  have hroom := h.completed_lt hc hlt
  have hdowns := h.downs_eq
  have hsub : s.ups - s.passed = s.ups - (s.passed + 1) + 1 := by omega
  have hcompleted : s.passed + 1 + s.woken = s.completed + 1 := Nat.add_right_comm s.passed 1 s.woken
  refine ⟨h.ups_eq.trans ups_down.symm, ?_, h.few, hlt, ?_, fun hs => ?_, ?_⟩
  · rw [downs_down, TokenState.completed, hcompleted, ← hdowns, Nat.add_right_comm]
  · dsimp only
    rw [semaphoreDown_count, if_pos hcount, h.count, hsub, BitVec.ofNat_add]
    exact BitVec.add_sub_cancel _ _
  · obtain ⟨hwoken, hblocked⟩ := h.start (served_down.not.mp hs)
    refine ⟨hwoken, fun hne => ?_⟩
    rw [downs_down]
    exact (hblocked hne).trans (Nat.lt_succ_self _)
  · rw [TokenState.completed, hcompleted]
    exact hroom

theorem block (h : TokenInv s os) (hcount : ¬ 0 < s.sem.count.toInt) (k : Kernel) :
    TokenInv { s with
      kernel := k, sem := (semaphoreDown s.kernel s.sem p).2, blocked := p :: s.blocked }
      (os ++ [.down p]) := by
  have hall : ¬ s.passed < s.ups := h.count_pos.not.mp hcount
  have hdowns := h.downs_eq
  have hpassed : s.passed ≤ s.completed := Nat.le_add_right s.passed s.woken
  refine ⟨h.ups_eq.trans ups_down.symm, ?_, h.few, h.passed, ?_, fun hs => ?_, h.completed⟩
  · rw [downs_down, ← hdowns]
    rfl
  · dsimp only
    rw [semaphoreDown_count, if_neg hcount, h.count]
  · refine ⟨(h.start (served_down.not.mp hs)).1, fun _ => ?_⟩
    rw [downs_down]
    dsimp only
    omega

theorem count_up (h : TokenInv s os) :
    (semaphoreUp s.kernel s.sem).2.count = BitVec.ofNat 32 (s.ups + 1 - s.passed) := by
  rw [semaphoreUp_count, h.count, Nat.sub_add_comm h.passed, BitVec.ofNat_add]
  rfl

/-- While no up was served nobody was blocked when one came. -/
theorem not_served (h : TokenInv s os) (hs : ¬ Served (os ++ [.up])) : ¬ Served os ∧ s.blocked = [] := by
  have hups := h.ups_eq
  rw [served_concat] at hs
  push Not at hs
  refine ⟨hs.1, by_contra fun hne => ?_⟩
  have hmore := (h.start hs.1).2 hne
  have hless := hs.2 rfl
  omega

theorem wake (h : TokenInv s os) (hc : InOrder os .up) (hp : p ∈ s.blocked) (k : Kernel) :
    TokenInv { s with
      kernel := k, sem := (semaphoreUp s.kernel s.sem).2, ups := s.ups + 1, woken := s.woken + 1
      blocked := s.blocked.erase p } (os ++ [.up]) := by
  have hdowns := h.downs_eq
  have hlength := List.length_erase_add_one hp
  refine ⟨by rw [ups_up, ← h.ups_eq], ?_, h.ups_eq ▸ hc, Nat.le_succ_of_le h.passed, h.count_up,
    fun hs => ?_, Nat.succ_le_succ h.completed⟩
  · rw [downs_up, ← hdowns, TokenState.completed, TokenState.completed]
    dsimp only
    omega
  · rw [(h.not_served hs).2] at hp
    cases hp

theorem store (h : TokenInv s os) (hc : InOrder os .up) (k : Kernel) :
    TokenInv { s with kernel := k, sem := (semaphoreUp s.kernel s.sem).2, ups := s.ups + 1 }
      (os ++ [.up]) := by
  refine ⟨by rw [ups_up, ← h.ups_eq], h.downs_eq.trans downs_up.symm, h.ups_eq ▸ hc,
    Nat.le_succ_of_le h.passed, h.count_up, fun hs => ?_, Nat.le_succ_of_le h.completed⟩
  obtain ⟨hserved, hblocked⟩ := h.not_served hs
  exact ⟨(h.start hserved).1, fun hne => absurd hblocked hne⟩

theorem step (h : TokenInv s os) (hc : InOrder os o) (hs : tokenStep s o = some t) :
    TokenInv t (os ++ [o]) := by
  cases o with
  | down p =>
    simp only [tokenStep] at hs
    split_ifs at hs with hcount
    · exact Option.some.inj hs ▸ h.pass hc hcount _
    · exact Option.some.inj hs ▸ h.block hcount _
  | up =>
    simp only [tokenStep] at hs
    split_ifs at hs with hblocked
    · exact Option.some.inj hs ▸ h.wake hc hblocked _
    · exact Option.some.inj hs ▸ h.store hc _

end TokenInv

/-- The steps, with the operations so far. -/
def tokenLogStep : TokenState × List TokenOp → TokenOp → Option (TokenState × List TokenOp) :=
  logged tokenStep fun _ o => [o]

/-- As long as behind an up that came after more downs than ups no down comes before there
were more ups than downs, no more downs have completed than there were ups. -/
theorem completed_le_ups {k : Kernel} {os : List TokenOp} {s : TokenState × List TokenOp}
    (hrun : Run tokenLogStep (fun s o => InOrder s.2 o) (⟨k, ⟨0, 0⟩, 0, 0, 0, []⟩, []) os s) :
    s.1.completed ≤ s.1.ups := by
  have hstep : ∀ s o s', TokenInv s.1 s.2 → InOrder s.2 o → tokenLogStep s o = some s' →
      TokenInv s'.1 s'.2 := by
    intro s o s' h hc hs
    obtain ⟨t, ht, rfl⟩ := Option.map_eq_some_iff.mp hs
    exact h.step hc ht
  refine (hrun.invariant (I := fun s => TokenInv s.1 s.2) hstep ?_).completed
  exact ⟨rfl, rfl, by norm_num, le_rfl, rfl, fun _ => ⟨rfl, fun h => absurd rfl h⟩, le_rfl⟩

/-- 16 is blocked and woken; behind a second up 32 passes. -/
theorem completed_le_ups_of_woken : ∃ s,
    Run tokenLogStep (fun s o => InOrder s.2 o) (⟨twoProcesses, ⟨0, 0⟩, 0, 0, 0, []⟩, [])
      [.down 16, .up, .up, .down 32] s ∧
    s.1.completed = 2 ∧ s.1.completed ≤ s.1.ups := by
  have hstep : ((tokenLogStep (⟨twoProcesses, ⟨0, 0⟩, 0, 0, 0, []⟩, []) (.down 16)).bind fun s =>
      (tokenLogStep s .up).bind fun s => (tokenLogStep s .up).bind fun s =>
        (tokenLogStep s (.down 32)).map fun s => s.1.completed) = some 2 := by
    decide +kernel
  obtain ⟨s₁, h₁, hstep⟩ := Option.bind_eq_some_iff.mp hstep
  obtain ⟨s₂, h₂, hstep⟩ := Option.bind_eq_some_iff.mp hstep
  obtain ⟨s₃, h₃, hstep⟩ := Option.bind_eq_some_iff.mp hstep
  obtain ⟨s₄, h₄, hdone⟩ := Option.map_eq_some_iff.mp hstep
  have hlog : ∀ {s t : TokenState × List TokenOp} {o : TokenOp}, tokenLogStep s o = some t →
      t.2 = s.2 ++ [o] := by
    intro s t o h
    obtain ⟨_, -, rfl⟩ := Option.map_eq_some_iff.mp h
    rfl
  have hrun : Run tokenLogStep (fun s o => InOrder s.2 o) (⟨twoProcesses, ⟨0, 0⟩, 0, 0, 0, []⟩, [])
      [.down 16, .up, .up, .down 32] s₄ := by
    refine .cons (fun h => absurd h not_served_nil) h₁ (.cons ?_ h₂ (.cons ?_ h₃ (.single ?_ h₄)))
    · rw [hlog h₁]
      exact (by decide : ups [.down 16] + 1 < 2 ^ 31)
    · rw [hlog h₂, hlog h₁]
      exact (by decide : ups [.down 16, .up] + 1 < 2 ^ 31)
    · rw [hlog h₃, hlog h₂, hlog h₁]
      exact fun _ => (by decide : downs [.down 16, .up, .up] < ups [.down 16, .up, .up])
  exact ⟨s₄, hrun, hdone, completed_le_ups hrun⟩

/-- A process is blocked and woken by the only up; the token that the up has left in the
count lets another one pass. -/
theorem completed_twice_with_one_up : ∃ s,
    Run tokenStep Anything ⟨twoProcesses, ⟨0, 0⟩, 0, 0, 0, []⟩ [.down 16, .up, .down 32] s ∧
    s.ups = 1 ∧ s.completed = 2 := by
  have hstep : ((tokenStep ⟨twoProcesses, ⟨0, 0⟩, 0, 0, 0, []⟩ (.down 16)).bind fun s =>
      (tokenStep s .up).bind fun s => (tokenStep s (.down 32)).map fun s => (s.ups, s.completed)) =
        some (1, 2) := by
    decide +kernel
  obtain ⟨s₁, h₁, hstep⟩ := Option.bind_eq_some_iff.mp hstep
  obtain ⟨s₂, h₂, hstep⟩ := Option.bind_eq_some_iff.mp hstep
  obtain ⟨s₃, h₃, hstep⟩ := Option.map_eq_some_iff.mp hstep
  obtain ⟨hups, hdone⟩ := Prod.mk.inj hstep
  exact ⟨s₃, .cons trivial h₁ (.cons trivial h₂ (.single trivial h₃)), hups, hdone⟩

/-! ### Queues -/

/-- What the queues are for: processes that are ready, and for each semaphore those that
wait, in the order of their arrival. -/
structure Queues where
  ready : List ℕ
  waiting : ℕ → List ℕ

namespace Queues

/-- A new process. -/
def enter (q : Queues) (p : ℕ) : Queues := { q with ready := q.ready ++ [p] }

/-- A ready process that has to wait. -/
def block (q : Queues) (s p : ℕ) : Queues :=
  ⟨q.ready.erase p, Function.update q.waiting s (q.waiting s ++ [p])⟩

/-- The process that has waited longest becomes ready. -/
def serve (q : Queues) (s : ℕ) : Queues :=
  match q.waiting s with
  | [] => q
  | p :: ps => ⟨q.ready ++ [p], Function.update q.waiting s ps⟩

theorem block_ready (q : Queues) (s p : ℕ) : (q.block s p).ready = q.ready.erase p := rfl

theorem block_waiting_self (q : Queues) (s p : ℕ) :
    (q.block s p).waiting s = q.waiting s ++ [p] := Function.update_self _ _ _

theorem block_waiting_of_ne (q : Queues) {s t : ℕ} (p : ℕ) (h : t ≠ s) :
    (q.block s p).waiting t = q.waiting t := Function.update_of_ne h _ _

theorem mem_block_waiting {q : Queues} {s t p x : ℕ} :
    x ∈ (q.block s p).waiting t ↔ x ∈ q.waiting t ∨ t = s ∧ x = p := by
  by_cases hts : t = s
  · rw [hts, block_waiting_self, List.mem_append, List.mem_singleton]
    simp
  · rw [block_waiting_of_ne q p hts]
    simp [hts]

/-- The processes in any of the queues. -/
def Holds (q : Queues) (p : ℕ) : Prop := p ∈ q.ready ∨ ∃ s, p ∈ q.waiting s

theorem holds_enter {q : Queues} {p x : ℕ} : (q.enter p).Holds x ↔ x = p ∨ q.Holds x := by
  simp only [Holds, enter, List.mem_append, List.mem_singleton]
  tauto

theorem holds_block {q : Queues} {s p : ℕ} (hp : p ∈ q.ready) (x : ℕ) :
    (q.block s p).Holds x ↔ q.Holds x := by
  simp only [Holds, block_ready, mem_block_waiting]
  constructor
  · rintro (hx | ⟨t, hx | ⟨-, rfl⟩⟩)
    · exact .inl (List.mem_of_mem_erase hx)
    · exact .inr ⟨t, hx⟩
    · exact .inl hp
  · rintro (hx | ⟨t, hx⟩)
    · by_cases hxp : x = p
      · exact .inr ⟨s, .inr ⟨rfl, hxp⟩⟩
      · exact .inl ((List.mem_erase_of_ne hxp).mpr hx)
    · exact .inr ⟨t, .inl hx⟩

theorem holds_serve {q : Queues} {s x : ℕ} : (q.serve s).Holds x ↔ q.Holds x := by
  rw [serve]
  split
  · rfl
  · rename_i p ps hws
    have hmem : ∀ t, x ∈ q.waiting t ↔
        x ∈ Function.update q.waiting s ps t ∨ t = s ∧ x = p := by
      intro t
      by_cases hts : t = s
      · rw [hts, Function.update_self, hws, List.mem_cons]
        tauto
      · rw [Function.update_of_ne hts]
        simp [hts]
    simp only [Holds, hmem, List.mem_append, List.mem_singleton]
    constructor
    · rintro ((hx | hx) | ⟨t, hx⟩)
      · exact .inl hx
      · exact .inr ⟨s, .inr ⟨rfl, hx⟩⟩
      · exact .inr ⟨t, .inl hx⟩
    · rintro (hx | ⟨t, hx | ⟨-, hx⟩⟩)
      · exact .inl (.inl hx)
      · exact .inr ⟨t, hx⟩
      · exact .inl (.inr hx)

end Queues

/-- The lists in memory are these queues, and no process is in two of them. -/
structure Separated (k : Kernel) (sems : ℕ → Semaphore) (q : Queues) : Prop where
  ready : IsList k.next k.readyQueue q.ready
  waiting : ∀ s, IsList k.next (sems s).queue (q.waiting s)
  apart : ∀ s, ∀ p ∈ q.waiting s, p ∉ q.ready
  alone : ∀ {s t p}, p ∈ q.waiting s → p ∈ q.waiting t → s = t
  address : ∀ {p}, q.Holds p → p < word32

section QueueSteps
variable {k : Kernel} {sems : ℕ → Semaphore} {q : Queues} {xs ys zs : List ℕ} {p : ℕ}

/-- Outside the queue and for its last process `process_add_ready_queue` changes no link. -/
theorem processAddReadyQueue_next (hlist : IsList k.next k.readyQueue xs)
    (haddr : ∀ q ∈ xs, q < word32) {x : ℕ} (hx : x ∉ xs) :
    (processAddReadyQueue k p).next x = k.next x := by
  rw [processAddReadyQueue, nodes_eq_of_isList hlist haddr]
  split_ifs
  · rfl
  · rcases xs.eq_nil_or_concat' with rfl | ⟨ys, l, rfl⟩
    · rfl
    · rw [List.getLast?_concat, Option.elim_some, Kernel.next_setNext, Function.update_of_ne]
      exact fun he => hx (he ▸ by simp)

/-- Only a link inside the queue changes when a process is taken out. -/
theorem processRemoveReadyQueue_next (hlist : IsList k.next k.readyQueue (ys ++ p :: zs))
    (haddr : ∀ q ∈ ys ++ p :: zs, q < word32) {x : ℕ} (hx : x ∉ ys) :
    (processRemoveReadyQueue k p).next x = k.next x := by
  have hp : p ∉ ys := fun h => not_mem_rest hlist.nodup (List.mem_append_left zs h)
  rw [processRemoveReadyQueue, nodes_eq_of_isList hlist haddr, removeFrom_append k p 0 hp]
  rcases ys.eq_nil_or_concat' with rfl | ⟨ws, l, rfl⟩
  · rw [if_neg (by simp)]
    rfl
  · have hl : l ≠ 0 := hlist.ne_zero (by simp)
    rw [List.getLast?_concat, Option.getD_some, if_pos hl, Kernel.next_setNext, Function.update_of_ne]
    exact fun he => hx (he ▸ by simp)

theorem semaphoreQueuePush_spec {s : Semaphore} (hlist : IsList k.next s.queue xs)
    (haddr : ∀ q ∈ xs, q < word32) (hp0 : p ≠ 0) (hp : p ∉ xs) :
    IsList (semaphoreQueuePush k s p).1.next (semaphoreQueuePush k s p).2.queue (xs ++ [p]) ∧
      (∀ x, x ∉ xs → x ≠ p → (semaphoreQueuePush k s p).1.next x = k.next x) ∧
      (semaphoreQueuePush k s p).1.readyQueue = k.readyQueue := by
  have hnodes : k.nodes s.queue = xs := hlist.walk_eq (hlist.length_le haddr)
  rw [semaphoreQueuePush, hnodes]
  rcases xs.eq_nil_or_concat' with rfl | ⟨ys, l, rfl⟩
  · have h0 : s.queue = 0 := hlist
    rw [if_pos h0]
    dsimp only
    rw [Kernel.next_setNext]
    exact ⟨⟨rfl, hp0, Function.update_self _ _ _⟩, fun x _ hx => Function.update_of_ne hx _ _, rfl⟩
  · have hhead : s.queue ≠ 0 := by
      cases ys with
      | nil => exact hlist.1 ▸ hlist.2.1
      | cons y ys => exact hlist.1 ▸ hlist.2.1
    have hne : ∀ x ∈ ys ++ [l], x ≠ p := fun x hx h => hp (h ▸ hx)
    have hnodup := List.nodup_append.mp hlist.nodup
    rw [if_neg hhead, List.getLast?_concat, Option.elim_some]
    dsimp only
    rw [Kernel.next_setNext, Kernel.next_setNext]
    refine ⟨?_, fun x hx hxp => ?_, rfl⟩
    · rw [List.append_assoc]
      refine hlist.snoc hp0 ?_ (Function.update_self _ _ _) fun x hx => ?_
      · rw [Function.update_of_ne (hne l (by simp)), Function.update_self]
      · rw [Function.update_of_ne (hne x (by simp [hx])),
          Function.update_of_ne (hnodup.2.2 x hx l (by simp))]
    · have hxl : x ≠ l := fun he => hx (by simp [he])
      rw [Function.update_of_ne hxp, Function.update_of_ne hxl]

theorem Kernel.next_setState (k : Kernel) (p : ℕ) (st : ProcessState) :
    (k.setProc p ({ · with state := st })).next = k.next := by
  funext x
  by_cases hx : x = p
  · rw [hx, Kernel.next, Kernel.setProc_self, Kernel.next]
  · rw [Kernel.next, Kernel.setProc_of_ne k _ hx, Kernel.next]

namespace Separated

theorem block (h : Separated k sems q) {s : ℕ} (hp : p ∈ q.ready)
    (hpos : ¬ 0 < (sems s).count.toInt) :
    Separated (semaphoreDown k (sems s) p).1
      (Function.update sems s (semaphoreDown k (sems s) p).2) (q.block s p) := by
  obtain ⟨ys, zs, hsplit⟩ := List.append_of_mem hp
  have hlist := h.ready
  have haddr : ∀ x ∈ q.ready, x < word32 := fun x hx => h.address (.inl hx)
  rw [hsplit] at hlist haddr
  have hnodup := hlist.nodup
  have herase : q.ready.erase p = ys ++ zs := by
    rw [hsplit, erase_eq_rest hnodup]
  have hstay : ∀ x ∈ ys ++ zs, x ∈ q.ready ∧ x ≠ p := by
    intro x hx
    rw [hsplit]
    exact mem_of_mem_rest hnodup hx
  have hpw : ∀ t, p ∉ q.waiting t := fun t hw => h.apart t p hw hp
  rw [semaphoreDown, if_neg hpos]
  have hstate := Kernel.next_setState k p .waiting
  generalize hk₁ : k.setProc p ({ · with state := .waiting }) = k₁ at *
  have hhead : k₁.readyQueue = k.readyQueue := by rw [← hk₁, Kernel.setProc]
  rw [← hstate, ← hhead] at hlist
  have hremoved := processRemoveReadyQueue_spec hlist haddr
  have hlinks : ∀ t, ∀ x ∈ q.waiting t, (processRemoveReadyQueue k₁ p).next x = k.next x := by
    intro t x hx
    rw [← hstate]
    refine processRemoveReadyQueue_next hlist haddr fun hxy => h.apart t x hx ?_
    rw [hsplit]
    exact List.mem_append_left _ hxy
  generalize processRemoveReadyQueue k₁ p = k₂ at *
  obtain ⟨hpush, hother, hhead₂⟩ := semaphoreQueuePush_spec
    ((h.waiting s).congr (hlinks s)) (fun x hx => h.address (.inr ⟨s, hx⟩))
    (h.ready.ne_zero hp) (hpw s)
  generalize semaphoreQueuePush k₂ (sems s) p = r at *
  refine ⟨?_, fun t => ?_, fun t x hx hr => ?_, @fun t u x hx hx' => ?_, @fun x hx => ?_⟩
  · rw [Queues.block_ready, herase, hhead₂]
    refine hremoved.congr fun x hx => hother x (fun hw => ?_) (hstay x hx).2
    exact h.apart s x hw (hstay x hx).1
  · by_cases hts : t = s
    · rw [hts, Queues.block_waiting_self, Function.update_self]
      exact hpush
    · rw [Queues.block_waiting_of_ne q p hts, Function.update_of_ne hts]
      refine (h.waiting t).congr fun x hx => ?_
      rw [hother x (fun hw => hts (h.alone hx hw)) fun he => hpw t (he ▸ hx), hlinks t x hx]
  · rw [Queues.block_ready, herase] at hr
    rcases Queues.mem_block_waiting.mp hx with hx | ⟨-, hx⟩
    · exact h.apart t x hx (hstay x hr).1
    · exact (hstay x hr).2 hx
  · rcases Queues.mem_block_waiting.mp hx with hx | ⟨ht, hx⟩
    · rcases Queues.mem_block_waiting.mp hx' with hx' | ⟨-, hx'⟩
      · exact h.alone hx hx'
      · exact absurd (hx' ▸ hx) (hpw t)
    · rcases Queues.mem_block_waiting.mp hx' with hx' | ⟨hu, -⟩
      · exact absurd (hx ▸ hx') (hpw u)
      · rw [ht, hu]
  · rcases hx with hx | ⟨t, hx⟩
    · rw [Queues.block_ready, herase] at hx
      exact h.address (.inl (hstay x hx).1)
    · rcases Queues.mem_block_waiting.mp hx with hx | ⟨-, rfl⟩
      · exact h.address (.inr ⟨t, hx⟩)
      · exact h.address (.inl hp)

theorem setCount (h : Separated k sems q) {s : ℕ} {sem : Semaphore} (hq : sem.queue = (sems s).queue) :
    Separated k (Function.update sems s sem) q := by
  refine { h with waiting := fun t => ?_ }
  by_cases hts : t = s
  · rw [hts, Function.update_self, hq]
    exact h.waiting s
  · rw [Function.update_of_ne hts]
    exact h.waiting t

theorem serve (h : Separated k sems q) {s : ℕ}
    (hone : (sems s).queue = 0 ∨ k.next (sems s).queue = 0) :
    Separated (semaphoreUp k (sems s)).1 (Function.update sems s (semaphoreUp k (sems s)).2)
      (q.serve s) := by
  have hw := h.waiting s
  rw [Queues.serve]
  rcases hws : q.waiting s with _ | ⟨p, ps⟩
  · rw [hws] at hw
    have h0 : (sems s).queue = 0 := hw
    simp only [semaphoreUp, semaphoreQueuePop, h0, if_true]
    exact h.setCount h0.symm
  · rw [hws] at hw
    obtain ⟨hhead, hp0, hrest⟩ := hw
    have hnext : k.next p = 0 := by
      rw [hhead] at hone
      exact hone.resolve_left hp0
    obtain rfl : ps = [] := by
      rw [hnext] at hrest
      exact IsList.unique hrest rfl
    have hpw : p ∈ q.waiting s := by
      rw [hws]
      exact List.mem_singleton_self p
    have hpr : p ∉ q.ready := h.apart s p hpw
    have hup : semaphoreUp k (sems s) =
        (processAddReadyQueue (k.setProc p ({ · with state := .ready })) p,
          ⟨(sems s).count + 1, k.next p⟩) := by
      simp only [semaphoreUp, semaphoreQueuePop, hhead, if_neg hp0]
      rfl
    have hstate := Kernel.next_setState k p .ready
    rw [hup]
    generalize hk₁ : k.setProc p ({ · with state := .ready }) = k₁ at *
    have hhead₁ : k₁.readyQueue = k.readyQueue := by rw [← hk₁, Kernel.setProc]
    have hready : IsList k₁.next k₁.readyQueue q.ready := by
      rw [hstate, hhead₁]
      exact h.ready
    have haddr : ∀ x ∈ q.ready, x < word32 := fun x hx => h.address (.inl hx)
    have hadd := (processAddReadyQueue_spec hready haddr hp0 hpr (hstate ▸ hnext)).1
    have hlinks : ∀ x, x ∉ q.ready → (processAddReadyQueue k₁ p).next x = k.next x := by
      intro x hx
      rw [processAddReadyQueue_next hready haddr hx, hstate]
    have hgone : ∀ t x, x ∈ Function.update q.waiting s [] t → x ∈ q.waiting t ∧ x ≠ p := by
      intro t x hx
      by_cases hts : t = s
      · rw [hts, Function.update_self] at hx
        cases hx
      · rw [Function.update_of_ne hts] at hx
        exact ⟨hx, fun he => hts (h.alone hx (he ▸ hpw))⟩
    dsimp only
    refine ⟨hadd, fun t => ?_, fun t x hx hr => ?_, fun hx hx' => ?_, @fun x hx => ?_⟩
    · by_cases hts : t = s
      · rw [hts, Function.update_self]
        dsimp only
        rw [Function.update_self]
        exact hnext
      · dsimp only
        rw [Function.update_of_ne hts, Function.update_of_ne hts]
        exact (h.waiting t).congr fun x hx => hlinks x (h.apart t x hx)
    · obtain ⟨hx, hxp⟩ := hgone t x hx
      rcases List.mem_append.mp hr with hr | hr
      · exact h.apart t x hx hr
      · exact hxp (List.mem_singleton.mp hr)
    · exact h.alone (hgone _ _ hx).1 (hgone _ _ hx').1
    · rcases hx with hx | ⟨t, hx⟩
      · rcases List.mem_append.mp hx with hx | hx
        · exact h.address (.inl hx)
        · rw [List.mem_singleton.mp hx]
          exact h.address (.inr ⟨s, hpw⟩)
      · exact h.address (.inr ⟨t, (hgone t x hx).1⟩)

theorem of_frame {k' : Kernel} (h : Separated k sems q)
    (hk : { k' with heap := k.heap, mmu := k.mmu } = k) : Separated k' sems q := by
  have hprocs : k'.procs = k.procs := (congrArg Kernel.procs hk :)
  have hnext : k'.next = k.next := by
    funext x
    rw [Kernel.next, hprocs, Kernel.next]
  have hhead : k'.readyQueue = k.readyQueue := (congrArg Kernel.readyQueue hk :)
  exact ⟨by rw [hnext, hhead]; exact h.ready, fun s => by rw [hnext]; exact h.waiting s, h.apart,
    h.alone, h.address⟩

theorem create (h : Separated k sems q) {a : Allocated} (entry stackBase pdt : ℕ) (switchTo : Bool)
    (hlt : a.node < word32) (hfresh : ¬ q.Holds a.node) :
    Separated (processCreateAt k a entry stackBase pdt switchTo) sems
      (if a.node = 0 then q else q.enter a.node) := by
  rw [processCreateAt]
  have hother : ∀ x, x ≠ a.node →
      (processFill k a entry stackBase pdt switchTo).next x = k.next x := by
    intro x hx
    have hprocs : (processFill k a entry stackBase pdt switchTo).procs x = k.procs x :=
      Function.update_of_ne hx _ _
    rw [Kernel.next, hprocs, Kernel.next]
  have hself : a.node ≠ 0 → (processFill k a entry stackBase pdt switchTo).next a.node = 0 := by
    intro h0
    rw [Kernel.next, processFill]
    dsimp only
    rw [Function.update_self, newProcess, if_neg h0]
    rfl
  have hhead : (processFill k a entry stackBase pdt switchTo).readyQueue = k.readyQueue := rfl
  generalize processFill k a entry stackBase pdt switchTo = k₁ at *
  have hne : ∀ x, q.Holds x → x ≠ a.node := fun x hx he => hfresh (he ▸ hx)
  have hready : IsList k₁.next k₁.readyQueue q.ready := by
    rw [hhead]
    exact h.ready.congr fun x hx => hother x (hne x (.inl hx))
  have haddr : ∀ x ∈ q.ready, x < word32 := fun x hx => h.address (.inl hx)
  have hwaiting : ∀ s, IsList (processAddReadyQueue k₁ a.node).next (sems s).queue (q.waiting s) := by
    intro s
    refine (h.waiting s).congr fun x hx => ?_
    rw [processAddReadyQueue_next hready haddr (h.apart s x hx), hother x (hne x (.inr ⟨s, hx⟩))]
  split_ifs with h0
  · rw [h0] at hwaiting ⊢
    exact ⟨(processAddReadyQueue_null hready haddr).1, hwaiting, h.apart, h.alone, h.address⟩
  · have hadd := (processAddReadyQueue_spec hready haddr h0 (fun hr => hfresh (.inl hr)) (hself h0)).1
    refine ⟨hadd, hwaiting, fun s x hx hr => ?_, h.alone, @fun x hx => ?_⟩
    · rcases List.mem_append.mp hr with hr | hr
      · exact h.apart s x hx hr
      · exact hne x (.inr ⟨s, hx⟩) (List.mem_singleton.mp hr)
    · rcases hx with hx | hx
      · rcases List.mem_append.mp hx with hx | hx
        · exact h.address (.inl hx)
        · rw [List.mem_singleton.mp hx]
          exact hlt
      · exact h.address (.inr hx)

end Separated

end QueueSteps

/-! ### Runs of creations, downs and ups -/

/-- The kernel with its semaphores, what the queues should be, and the processes there
are. -/
structure SemState where
  kernel : Kernel
  sems : ℕ → Semaphore
  queues : Queues
  processes : List ℕ

inductive SemOp
  | create (entry stackBase pdt : ℕ) (switchTo : Bool)
  | down (s p : ℕ)
  | up (s : ℕ)

/-- A down is made by a ready process. -/
def semStep (t : SemState) : SemOp → Option SemState
  | .create entry stackBase pdt switchTo =>
    (processCreate t.kernel entry stackBase pdt switchTo).map fun r =>
      if r.1 = 0 then { t with kernel := r.2 }
      else { t with kernel := r.2, queues := t.queues.enter r.1, processes := r.1 :: t.processes }
  | .down s p =>
    let r := semaphoreDown t.kernel (t.sems s) p
    if p ∈ t.queues.ready then
      some { t with
        kernel := r.1
        sems := Function.update t.sems s r.2
        queues := if 0 < (t.sems s).count.toInt then t.queues else t.queues.block s p }
    else none
  | .up s =>
    let r := semaphoreUp t.kernel (t.sems s)
    some { t with
      kernel := r.1, sems := Function.update t.sems s r.2, queues := t.queues.serve s }

/-- An up finds at most one process waiting; memory for a new process is not that of one
that exists. -/
def OneWaiter (t : SemState) : SemOp → Prop
  | .create _ _ _ _ => ∀ a k', processAllocate t.kernel = some (a, k') → ¬ t.queues.Holds a.node
  | .down _ _ => True
  | .up s => (t.sems s).queue = 0 ∨ t.kernel.next (t.sems s).queue = 0

/-- What a run keeps: the lists are the queues, and these hold the processes there are. -/
structure SemInv (t : SemState) : Prop where
  separated : Separated t.kernel t.sems t.queues
  cover : ∀ p, p ∈ t.processes ↔ t.queues.Holds p

theorem SemInv.step {t t' : SemState} {o : SemOp} (h : SemInv t) (hc : OneWaiter t o)
    (hs : semStep t o = some t') : SemInv t' := by
  obtain ⟨hsep, hcover⟩ := h
  cases o with
  | create entry stackBase pdt switchTo =>
    obtain ⟨r, hr, rfl⟩ := Option.map_eq_some_iff.mp hs
    obtain ⟨⟨a, k⟩, ha, rfl⟩ := Option.map_eq_some_iff.mp hr
    have hcreate := (hsep.of_frame (processAllocate_frame ha)).create entry stackBase pdt switchTo
      (processAllocate_node_lt ha) (hc a k ha)
    dsimp only
    split_ifs at hcreate ⊢
    · exact ⟨hcreate, hcover⟩
    · refine ⟨hcreate, fun p => ?_⟩
      dsimp only
      rw [Queues.holds_enter, List.mem_cons, hcover]
  | down s p =>
    simp only [semStep] at hs
    by_cases hp : p ∈ t.queues.ready
    · rw [if_pos hp] at hs
      obtain rfl := Option.some.inj hs
      by_cases hpos : 0 < (t.sems s).count.toInt
      · rw [if_pos hpos, semaphoreDown, if_pos hpos]
        exact ⟨hsep.setCount rfl, hcover⟩
      · rw [if_neg hpos]
        exact ⟨hsep.block hp hpos, fun x => (hcover x).trans (Queues.holds_block hp x).symm⟩
    · rw [if_neg hp] at hs
      cases hs
  | up s =>
    obtain rfl := Option.some.inj hs
    exact ⟨hsep.serve hc, fun x => (hcover x).trans Queues.holds_serve.symm⟩

/-- While no up finds two processes waiting: the lists in memory are the queues of the
specification, served in the order of arrival, without cycles or repetitions, and every
process is in exactly one of them. -/
theorem queues_separated {k : Kernel} {sems : ℕ → Semaphore} {xs : List ℕ} {os : List SemOp}
    {t : SemState} (hready : IsList k.next k.readyQueue xs) (haddr : ∀ p ∈ xs, p < word32)
    (hempty : ∀ s, (sems s).queue = 0)
    (hrun : Run semStep OneWaiter ⟨k, sems, ⟨xs, fun _ => []⟩, xs⟩ os t) :
    IsList t.kernel.next t.kernel.readyQueue t.queues.ready ∧
    (∀ s, IsList t.kernel.next (t.sems s).queue (t.queues.waiting s)) ∧
    t.queues.ready.Nodup ∧ (∀ s, (t.queues.waiting s).Nodup) ∧
    ∀ p ∈ t.processes, p ∈ t.queues.ready ∧ (∀ s, p ∉ t.queues.waiting s) ∨
      p ∉ t.queues.ready ∧ ∃! s, p ∈ t.queues.waiting s := by
  have hstart : SemInv ⟨k, sems, ⟨xs, fun _ => []⟩, xs⟩ := by
    refine ⟨⟨hready, hempty, fun _ _ hp => ?_, @fun _ _ _ hp => ?_, @fun p hp => ?_⟩, fun p => ?_⟩
    · cases hp
    · cases hp
    · rcases hp with hp | ⟨s, hp⟩
      · exact haddr p hp
      · cases hp
    · simp [Queues.Holds]
  obtain ⟨h, hcover⟩ := hrun.invariant (I := SemInv) (fun _ _ _ hI hc hs => hI.step hc hs) hstart
  refine ⟨h.ready, h.waiting, h.ready.nodup, fun s => (h.waiting s).nodup, fun p hp => ?_⟩
  rcases (hcover p).mp hp with hr | ⟨s, hw⟩
  · exact .inl ⟨hr, fun s hw => h.apart s p hw hr⟩
  · exact .inr ⟨h.apart s p hw, s, hw, fun t ht => h.alone ht hw⟩

/-- 16 and 32 are ready and no semaphore is in use. -/
def bothReady : SemState := ⟨twoProcesses, fun _ => ⟨0, 0⟩, ⟨[16, 32], fun _ => []⟩, [16, 32]⟩

theorem queues_separated_of_one_waiter : ∃ t,
    Run semStep OneWaiter bothReady [.down 0 16, .up 0] t ∧ t.queues.ready = [32, 16] ∧
    IsList t.kernel.next t.kernel.readyQueue [32, 16] := by
  have hstep : ((semStep bothReady (.down 0 16)).bind fun t => (semStep t (.up 0)).map fun t' =>
      (t.kernel.next (t.sems 0).queue, t'.queues.ready)) = some (0, [32, 16]) := by
    decide +kernel
  obtain ⟨t₁, h₁, hstep⟩ := Option.bind_eq_some_iff.mp hstep
  obtain ⟨t₂, h₂, hstep⟩ := Option.map_eq_some_iff.mp hstep
  obtain ⟨hone, hready⟩ := Prod.mk.inj hstep
  have hrun : Run semStep OneWaiter bothReady [.down 0 16, .up 0] t₂ :=
    .cons trivial h₁ (.single (.inr hone) h₂)
  have h := queues_separated twoProcesses_queued.list twoProcesses_queued.address (fun _ => rfl) hrun
  exact ⟨t₂, hrun, hready, hready ▸ h.1⟩

/-- 16 and 32 wait and 16 is woken: 32 is in the ready queue and in that of the
semaphore. -/
theorem queues_spliced_of_two_waiters : ∃ t,
    Run semStep Anything bothReady [.down 0 16, .down 0 32, .up 0] t ∧
    IsList t.kernel.next t.kernel.readyQueue [16, 32] ∧
    IsList t.kernel.next (t.sems 0).queue [32] := by
  have hstep : ((semStep bothReady (.down 0 16)).bind fun t => (semStep t (.down 0 32)).bind fun t =>
      (semStep t (.up 0)).map fun t =>
        (t.kernel.readyQueue, t.kernel.next 16, t.kernel.next 32, (t.sems 0).queue)) =
      some (16, 32, 0, 32) := by
    decide +kernel
  obtain ⟨t₁, h₁, hstep⟩ := Option.bind_eq_some_iff.mp hstep
  obtain ⟨t₂, h₂, hstep⟩ := Option.bind_eq_some_iff.mp hstep
  obtain ⟨t₃, h₃, hstep⟩ := Option.map_eq_some_iff.mp hstep
  simp only [Prod.mk.injEq] at hstep
  obtain ⟨hhead, hnext, hlast, hqueue⟩ := hstep
  refine ⟨t₃, .cons trivial h₁ (.cons trivial h₂ (.single trivial h₃)), ?_, ?_⟩
  · exact ⟨hhead, by decide, hnext, by decide, hlast⟩
  · exact ⟨hqueue, by decide, hlast⟩

end DosKernel
