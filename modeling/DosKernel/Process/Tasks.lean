import DosKernel.Frames.Bitmap
import DosKernel.Lib.LinkedList
import DosKernel.Lib.Runs

/-! The queue of tasks. `task_remove_all_from` frees every task of a process, but takes a task out
of the list through the one it has looked at before, which may be a freed one: the list behind a
task that was taken out is left as it is. -/

namespace DosKernel

open Lib

/-! ### The code -/

/-- The fields of `task_t` that the queue looks at. -/
structure Task where
  process : ℕ
  next : ℕ

/-- `queue` with the tasks at their addresses, and the addresses that have been freed. -/
structure TaskQueue where
  queue : ℕ
  tasks : ℕ → Task
  freed : List ℕ

namespace TaskQueue

def next (s : TaskQueue) (t : ℕ) : ℕ := (s.tasks t).next

def nodes (s : TaskQueue) : List ℕ := walk s.next word32 s.queue

def setNext (s : TaskQueue) (t next : ℕ) : TaskQueue :=
  { s with tasks := Function.update s.tasks t { s.tasks t with next := next } }

/-- `free`, which leaves the contents of a block as they are. -/
def free (s : TaskQueue) (t : ℕ) : TaskQueue := { s with freed := s.freed ++ [t] }

/-- The loop of `task_push`: the last task of the list. -/
def lastFrom (s : TaskQueue) : (fuel current : ℕ) → Option ℕ
  | 0, _ => none
  | fuel + 1, current => if s.next current = 0 then some current else lastFrom s fuel (s.next current)

def taskPush (s : TaskQueue) (task : ℕ) : Option TaskQueue :=
  if s.queue = 0 then some { s with queue := task }
  else (s.lastFrom word32 s.queue).map fun current => s.setNext current task

def taskPop (s : TaskQueue) : ℕ × TaskQueue :=
  if s.queue ≠ 0 then (s.queue, { s with queue := s.next s.queue }) else (0, s)

/-- The assignments that take `node` out of the list, in `task_remove_all_from`. -/
def unlink (s : TaskQueue) (prev node : ℕ) : TaskQueue :=
  if prev ≠ 0 then s.setNext prev (s.next node) else { s with queue := s.next node }

/-- The loop of `task_remove_all_from`. -/
def removeAllFrom (p : ℕ) : (fuel prev node : ℕ) → TaskQueue → Option TaskQueue
  | 0, _, _, _ => none
  | fuel + 1, prev, node, s =>
    if node = 0 then some s
    else
      let s := if (s.tasks node).process = p then (s.unlink prev node).free node else s
      removeAllFrom p fuel node (s.next node) s

def taskRemoveAllFrom (s : TaskQueue) (p : ℕ) : Option TaskQueue :=
  removeAllFrom p word32 0 s.queue s

/-- What happens to the queue: a block from `malloc` that holds some `next` is made a task and pushed,
the idle loop pops a task and frees it, a process is removed. -/
inductive TaskOp
  | push (task process next : ℕ)
  | pop
  | remove (process : ℕ)

def step (s : TaskQueue) : TaskOp → Option TaskQueue
  | .push task process next =>
    taskPush { s with
      tasks := Function.update s.tasks task ⟨process, next⟩
      freed := s.freed.filter (· ≠ task) } task
  | .pop =>
    let (task, s) := s.taskPop
    some (if task ≠ 0 then s.free task else s)
  | .remove process => s.taskRemoveAllFrom process

/-! ### What is to hold -/

/-- The removal of a process leaves the tasks of the others, and none that was freed. -/
def Cleaned (s : TaskQueue) (p : ℕ) : Prop :=
  ∃ s', s.taskRemoveAllFrom p = some s' ∧
    IsList s'.next s'.queue (s.nodes.filter fun t => (s.tasks t).process ≠ p) ∧
    (∀ t, (s'.tasks t).process = (s.tasks t).process) ∧ ∀ t ∈ s'.freed, t ∉ s'.nodes

/-- No two tasks of the process stand one behind the other. -/
def NoNeighbours (s : TaskQueue) (p : ℕ) : Prop :=
  s.nodes.IsChain fun t t' => ¬ ((s.tasks t).process = p ∧ (s.tasks t').process = p)

/-- A pushed block is no task in the queue and its `next` is `NULL`; a process that is removed has no
two tasks one behind the other. -/
def Allowed (s : TaskQueue) : TaskOp → Prop
  | .push task _ next => task ≠ 0 ∧ task < word32 ∧ task ∉ s.nodes ∧ next = 0
  | .pop => True
  | .remove process => s.NoNeighbours process

/-! ### The loops -/

variable {s s' : TaskQueue} {p prev node fuel t : ℕ} {done rest xs : List ℕ} {removed : Bool}

@[simp] theorem setNext_process (s : TaskQueue) (t n u : ℕ) :
    ((s.setNext t n).tasks u).process = (s.tasks u).process := by
  by_cases hu : u = t
  · rw [hu]
    change (Function.update s.tasks t _ t).process = _
    rw [Function.update_self]
  · exact congrArg Task.process (Function.update_of_ne hu _ s.tasks)

@[simp] theorem setNext_next_self (s : TaskQueue) (t n : ℕ) : (s.setNext t n).next t = n :=
  congrArg Task.next (Function.update_self t _ s.tasks)

theorem setNext_next_of_ne (s : TaskQueue) {t u : ℕ} (n : ℕ) (h : u ≠ t) :
    (s.setNext t n).next u = s.next u :=
  congrArg Task.next (Function.update_of_ne h _ s.tasks)

@[simp] theorem unlink_process (s : TaskQueue) (prev node t : ℕ) :
    ((s.unlink prev node).tasks t).process = (s.tasks t).process := by
  unfold unlink
  split_ifs
  · exact setNext_process s _ _ t
  · rfl

@[simp] theorem unlink_freed (s : TaskQueue) (prev node : ℕ) : (s.unlink prev node).freed = s.freed := by
  unfold unlink
  split_ifs <;> rfl

/-- What the loop leaves of the tasks that it has not looked at: behind a task that it has taken out,
one of the process stays. -/
def survivors (s : TaskQueue) (p : ℕ) : Bool → List ℕ → List ℕ
  | _, [] => []
  | removed, t :: ts =>
    if (s.tasks t).process = p then
      if removed then t :: survivors s p false ts else survivors s p true ts
    else t :: survivors s p false ts

/-- `prev` in the loop: nothing, the last task that stays in the list, or one that was taken out. -/
inductive Behind (done rest : List ℕ) : Bool → ℕ → Prop
  | first (h : done = []) : Behind done rest false 0
  | kept (front : List ℕ) (last : ℕ) (h : done = front ++ [last]) : Behind done rest false last
  | removed (t : ℕ) (hne : t ≠ 0) (h : t ∉ done ++ rest) : Behind done rest true t

/-- The loop has come to `node`, with the tasks `done` in front of it. -/
structure Sweeping (s : TaskQueue) (removed : Bool) (prev node : ℕ) (done rest : List ℕ) : Prop where
  front : IsSeg s.next s.queue done node
  back : IsList s.next node rest
  nodup : (done ++ rest).Nodup
  behind : Behind done rest removed prev

/-- A task that stays is the one behind which the loop goes on. -/
theorem Sweeping.keep (h : Sweeping s removed prev node done (node :: rest)) :
    Sweeping s false node (s.next node) (done ++ [node]) rest := by
  obtain ⟨-, hne, hback⟩ := h.back
  refine ⟨isSeg_append.mpr ⟨node, h.front, rfl, hne, rfl⟩, hback, ?_, .kept done node rfl⟩
  rw [List.append_assoc]
  exact h.nodup

/-- The assignment to the field of a freed task does not take the next one out. -/
theorem Sweeping.unlink_removed (h : Sweeping s true prev node done (node :: rest)) :
    Sweeping (s.unlink prev node) true prev node done (node :: rest) := by
  cases h.behind with
  | removed _ hne hout =>
    have hnext : ∀ t ∈ done ++ node :: rest, (s.setNext prev (s.next node)).next t = s.next t :=
      fun t ht => setNext_next_of_ne s _ fun he => hout (he ▸ ht)
    rw [unlink, if_pos hne]
    refine ⟨h.front.congr fun t ht => hnext t (List.mem_append_left _ ht),
      IsSeg.congr h.back fun t ht => hnext t (List.mem_append_right _ ht), h.nodup,
      .removed prev hne hout⟩

/-- Behind a task that stays, the next one is taken out. -/
theorem Sweeping.unlink_kept (h : Sweeping s false prev node done (node :: rest)) :
    Sweeping (s.unlink prev node) true node ((s.unlink prev node).next node) done rest := by
  obtain ⟨-, hne, hback⟩ := h.back
  have hout : node ∉ done ++ rest := not_mem_rest h.nodup
  have hnodup : (done ++ rest).Nodup := (List.nodup_cons.mp (List.nodup_middle.mp h.nodup)).2
  cases h.behind with
  | first hdone =>
    subst hdone
    exact ⟨rfl, hback, hnodup, .removed node hne hout⟩
  | kept front last hdone =>
    subst hdone
    obtain ⟨c, hfront, rfl, hlast, -⟩ := isSeg_append.mp h.front
    have hsplit : (front ++ c :: rest).Nodup := by rwa [List.append_assoc] at hnodup
    have hcout := not_mem_rest hsplit
    have hcnode : node ≠ c := fun he => hout (by rw [he]; simp)
    have hnode := setNext_next_of_ne s (s.next node) hcnode
    rw [unlink, if_pos hlast, hnode]
    refine ⟨isSeg_append.mpr ⟨c, ?_, rfl, hlast, setNext_next_self s c _⟩, ?_, hnodup,
      .removed node hne hout⟩
    · exact hfront.congr fun t ht =>
        setNext_next_of_ne s _ fun he => hcout (he ▸ List.mem_append_left _ ht)
    · exact IsSeg.congr hback fun t ht =>
        setNext_next_of_ne s _ fun he => hcout (he ▸ List.mem_append_right _ ht)

theorem Sweeping.free (h : Sweeping s removed prev node done rest) (t : ℕ) :
    Sweeping (s.free t) removed prev node done rest := ⟨h.front, h.back, h.nodup, h.behind⟩

/-- A task of the process is freed. It stays in the list if the one in front of it was taken out. -/
theorem Sweeping.taken (h : Sweeping s removed prev node done (node :: rest)) :
    Sweeping ((s.unlink prev node).free node) (!removed) node ((s.unlink prev node).next node)
      (done ++ if removed then [node] else []) rest := by
  cases removed with
  | false =>
    rw [if_neg Bool.false_ne_true, List.append_nil]
    exact h.unlink_kept.free node
  | true => exact h.unlink_removed.keep.free node

theorem survivors_taken (hp : (s.tasks t).process = p) : s.survivors p removed (t :: xs) =
    (if removed then [t] else []) ++ s.survivors p (!removed) xs := by
  rw [survivors, if_pos hp]
  cases removed <;> rfl

theorem survivors_congr (h : ∀ t, (s'.tasks t).process = (s.tasks t).process) :
    s'.survivors p removed xs = s.survivors p removed xs := by
  induction xs generalizing removed with
  | nil => rfl
  | cons t ts ih => rw [survivors, survivors, h, ih, ih]

/-- The loop frees the tasks of the process, and leaves the survivors in the list. -/
theorem removeAllFrom_spec (h : Sweeping s removed prev node done rest) (hfuel : rest.length < fuel) :
    ∃ s', removeAllFrom p fuel prev node s = some s' ∧
      IsList s'.next s'.queue (done ++ s.survivors p removed rest) ∧
      (∀ t, (s'.tasks t).process = (s.tasks t).process) ∧
      s'.freed = s.freed ++ rest.filter fun t => (s.tasks t).process = p := by
  induction rest generalizing s removed prev node done fuel with
  | nil =>
    obtain ⟨fuel, rfl⟩ := Nat.exists_eq_add_one.mpr hfuel
    have hend : node = 0 := h.back
    refine ⟨s, by rw [removeAllFrom, if_pos hend], ?_, fun t => rfl, (List.append_nil _).symm⟩
    have hfront := h.front
    rw [survivors, List.append_nil]
    rwa [hend] at hfront
  | cons t ts ih =>
    obtain ⟨fuel, rfl⟩ := Nat.exists_eq_add_one.mpr (Nat.zero_lt_of_lt hfuel)
    have hts : ts.length < fuel := Nat.lt_of_succ_lt_succ hfuel
    obtain ⟨rfl, hne, -⟩ := h.back
    rw [removeAllFrom, if_neg hne]
    dsimp only
    by_cases hp : (s.tasks node).process = p
    · have hprocess : ∀ t, (((s.unlink prev node).free node).tasks t).process = (s.tasks t).process :=
        unlink_process s prev node
      have hfreed : ((s.unlink prev node).free node).freed = s.freed ++ [node] := by
        rw [TaskQueue.free, unlink_freed]
      obtain ⟨s', hs', hlist, hsame, hall⟩ := ih h.taken hts
      rw [if_pos hp, survivors_taken hp, List.filter_cons_of_pos (by simpa using hp)]
      refine ⟨s', hs', ?_, fun t => (hsame t).trans (hprocess t), ?_⟩
      · rwa [survivors_congr hprocess, List.append_assoc] at hlist
      · rw [hall, hfreed, List.append_assoc, List.singleton_append]
        simp only [hprocess]
    · obtain ⟨s', hs', hlist, hsame, hall⟩ := ih h.keep hts
      rw [if_neg hp, survivors, if_neg hp, List.filter_cons_of_neg (by simpa using hp)]
      refine ⟨s', hs', ?_, hsame, hall⟩
      rwa [List.append_assoc] at hlist

/-! ### The removal -/

/-- The tasks of the process are gone exactly if no two of them stood one behind the other. -/
theorem survivors_eq_filter :
    s.survivors p removed xs = xs.filter (fun t => (s.tasks t).process ≠ p) ↔
      (removed = true → ∀ t ∈ xs.head?, (s.tasks t).process ≠ p) ∧
        xs.IsChain fun t t' => ¬ ((s.tasks t).process = p ∧ (s.tasks t').process = p) := by
  induction xs generalizing removed with
  | nil => exact iff_of_true rfl ⟨fun _ t ht => by simp at ht, .nil⟩
  | cons t ts ih =>
    rw [survivors, List.isChain_cons]
    by_cases hp : (s.tasks t).process = p
    · rw [if_pos hp, List.filter_cons_of_neg (by simpa using hp)]
      cases removed with
      | false =>
        rw [if_neg (by decide), ih]
        simp [hp]
      | true =>
        rw [if_pos rfl]
        refine iff_of_false (fun h => ?_) fun h => h.1 rfl t rfl hp
        have hmem : t ∈ ts.filter fun t => (s.tasks t).process ≠ p := h ▸ List.mem_cons_self
        exact absurd hp (by simpa using (List.mem_filter.mp hmem).2)
    · rw [if_neg hp, List.filter_cons_of_pos (by simpa using hp), List.cons.injEq, ih]
      simp [hp]

/-- The queue is a list of addresses, and none of its tasks is freed. -/
structure Holds (s : TaskQueue) (xs : List ℕ) : Prop where
  list : IsList s.next s.queue xs
  addr : ∀ t ∈ xs, t < word32
  live : ∀ t ∈ s.freed, t ∉ xs

theorem Holds.length_lt (h : Holds s xs) : xs.length < word32 := by
  have hnodup : (0 :: xs).Nodup := List.nodup_cons.mpr ⟨fun hz => h.list.ne_zero hz rfl, h.list.nodup⟩
  have hsub : 0 :: xs ⊆ List.range word32 := by
    intro t ht
    rcases List.mem_cons.mp ht with rfl | ht
    · exact List.mem_range.mpr (by decide)
    · exact List.mem_range.mpr (h.addr t ht)
  have hle := (List.subperm_of_subset hnodup hsub).length_le
  rwa [List.length_range] at hle

theorem Holds.nodes_eq (h : Holds s xs) : s.nodes = xs := h.list.walk_eq h.length_lt.le

theorem taskRemoveAllFrom_spec (h : Holds s xs) (p : ℕ) :
    ∃ s', s.taskRemoveAllFrom p = some s' ∧ IsList s'.next s'.queue (s.survivors p false xs) ∧
      (∀ t, (s'.tasks t).process = (s.tasks t).process) ∧
      s'.freed = s.freed ++ xs.filter fun t => (s.tasks t).process = p := by
  have hstart : Sweeping s false 0 s.queue [] xs := ⟨rfl, h.list, h.list.nodup, .first rfl⟩
  exact removeAllFrom_spec hstart h.length_lt

/-- Without such tasks the others stay in the queue, and no freed one. -/
theorem Holds.remove (h : Holds s xs) (hchain : s.NoNeighbours p) :
    ∃ s', s.taskRemoveAllFrom p = some s' ∧
      Holds s' (xs.filter fun t => (s.tasks t).process ≠ p) ∧
      ∀ t, (s'.tasks t).process = (s.tasks t).process := by
  obtain ⟨s', hs', hlist, hsame, hfreed⟩ := taskRemoveAllFrom_spec h p
  rw [NoNeighbours, h.nodes_eq] at hchain
  rw [survivors_eq_filter.mpr ⟨fun h => absurd h (by decide), hchain⟩] at hlist
  refine ⟨s', hs', ⟨hlist, fun t ht => h.addr t (List.mem_filter.mp ht).1, fun t ht hmem => ?_⟩, hsame⟩
  rw [hfreed] at ht
  obtain ⟨hin, hother⟩ := List.mem_filter.mp hmem
  rcases List.mem_append.mp ht with ht | ht
  · exact h.live t ht hin
  · have hp := (List.mem_filter.mp ht).2
    simp only [decide_eq_true_eq] at hp hother
    exact hother hp

theorem cleaned_iff (h : Holds s xs) (p : ℕ) : s.Cleaned p ↔ s.NoNeighbours p := by
  constructor
  · rintro ⟨s', hs', hlist, -, -⟩
    obtain ⟨s'', hs'', hlist', -, -⟩ := taskRemoveAllFrom_spec h p
    obtain rfl := Option.some.inj (hs'.symm.trans hs'')
    have heq := hlist'.unique hlist
    rw [h.nodes_eq] at heq
    rw [NoNeighbours, h.nodes_eq]
    exact (survivors_eq_filter.mp heq).2
  · intro hchain
    obtain ⟨s', hs', hholds, hsame⟩ := h.remove hchain
    refine ⟨s', hs', ?_, hsame, ?_⟩
    · rw [h.nodes_eq]
      exact hholds.list
    · rw [hholds.nodes_eq]
      exact hholds.live

/-! ### Runs -/

theorem lastFrom_eq {a : ℕ} (h : IsList s.next a (xs ++ [t])) (hfuel : xs.length < fuel) :
    s.lastFrom fuel a = some t := by
  induction xs generalizing a fuel with
  | nil =>
    obtain ⟨fuel, rfl⟩ := Nat.exists_eq_add_one.mpr hfuel
    obtain ⟨rfl, -, hnil⟩ := h
    have hend : s.next a = 0 := hnil
    rw [lastFrom, if_pos hend]
  | cons x xs ih =>
    obtain ⟨fuel, rfl⟩ := Nat.exists_eq_add_one.mpr (Nat.zero_lt_of_lt hfuel)
    obtain ⟨rfl, -, hrest⟩ := h
    have hne : s.next a ≠ 0 := by
      intro hz
      rw [hz] at hrest
      cases xs with
      | nil => exact hrest.2.1 hrest.1.symm
      | cons y ys => exact hrest.2.1 hrest.1.symm
    rw [lastFrom, if_neg hne]
    exact ih hrest (Nat.lt_of_succ_lt_succ hfuel)

/-- A new task comes behind the others. -/
theorem Holds.push (h : Holds s xs) (hne : t ≠ 0) (haddr : t < word32) (hout : t ∉ xs)
    (hfreed : t ∉ s.freed) (hnull : s.next t = 0) :
    ∃ s', s.taskPush t = some s' ∧ Holds s' (xs ++ [t]) := by
  have haddrs : ∀ u ∈ xs ++ [t], u < word32 := by
    intro u hu
    rcases List.mem_append.mp hu with hu | hu
    · exact h.addr u hu
    · rwa [List.mem_singleton.mp hu]
  have hlive : ∀ u ∈ s.freed, u ∉ xs ++ [t] := by
    intro u hu hmem
    rcases List.mem_append.mp hmem with hmem | hmem
    · exact h.live u hu hmem
    · rw [List.mem_singleton.mp hmem] at hu
      exact hfreed hu
  rcases List.eq_nil_or_concat xs with rfl | ⟨front, last, rfl⟩
  · have hempty : s.queue = 0 := h.list
    exact ⟨{ s with queue := t }, by rw [taskPush, if_pos hempty], ⟨rfl, hne, hnull⟩, haddrs, hlive⟩
  · rw [List.concat_eq_append] at *
    have hqueue : s.queue ≠ 0 := by
      cases front with
      | nil => exact h.list.1 ▸ h.list.2.1
      | cons q front => exact h.list.1 ▸ h.list.2.1
    have hlength : front.length < word32 := by
      have := h.length_lt
      rw [List.length_append] at this
      omega
    have hlast : last ≠ t := fun he => hout (by rw [he]; simp)
    refine ⟨s.setNext last t, ?_, ?_, haddrs, hlive⟩
    · rw [taskPush, if_neg hqueue, lastFrom_eq h.list hlength, Option.map_some]
    · have hnodup := h.list.nodup
      rw [List.append_assoc]
      refine h.list.snoc hne (setNext_next_self s last t) ?_ fun u hu => ?_
      · rwa [setNext_next_of_ne s t hlast.symm]
      · exact setNext_next_of_ne s t fun he => not_mem_rest hnodup (he ▸ by simpa using hu)

theorem taskPush_process (h : s.taskPush t = some s') (u : ℕ) :
    (s'.tasks u).process = (s.tasks u).process := by
  rw [taskPush] at h
  split_ifs at h
  · rw [← Option.some.inj h]
  · obtain ⟨current, -, rfl⟩ := Option.map_eq_some_iff.mp h
    exact setNext_process s current t u

/-- The contents of a block that is no task in the queue do not matter to it. -/
theorem Holds.write (h : Holds s xs) (hout : t ∉ xs) (task : Task) :
    Holds { s with
      tasks := Function.update s.tasks t task
      freed := s.freed.filter (· ≠ t) } xs := by
  refine ⟨IsSeg.congr h.list fun u hu => ?_, h.addr, fun u hu => h.live u (List.mem_of_mem_filter hu)⟩
  have hne : u ≠ t := fun he => hout (he ▸ hu)
  exact congrArg Task.next (Function.update_of_ne hne task s.tasks)

theorem Holds.step_push (h : Holds s xs) (hne : t ≠ 0) (haddr : t < word32) (hout : t ∉ xs) (p : ℕ) :
    ∃ s', s.step (.push t p 0) = some s' ∧ Holds s' (xs ++ [t]) ∧ (s'.tasks t).process = p ∧
      ∀ u, u ≠ t → (s'.tasks u).process = (s.tasks u).process := by
  have hself := Function.update_self t (⟨p, 0⟩ : Task) s.tasks
  obtain ⟨s', hs', hholds⟩ := (h.write hout ⟨p, 0⟩).push hne haddr hout
    (fun hmem => by simpa using (List.mem_filter.mp hmem).2) (congrArg Task.next hself)
  have hprocess := taskPush_process hs'
  refine ⟨s', hs', hholds, (hprocess t).trans (congrArg Task.process hself), fun u hu => ?_⟩
  exact (hprocess u).trans (congrArg Task.process (Function.update_of_ne hu _ s.tasks))

theorem Holds.pop (h : Holds s xs) (hqueue : s.queue ≠ 0) :
    Holds ({ s with queue := s.next s.queue }.free s.queue) xs.tail := by
  cases xs with
  | nil => exact absurd h.list hqueue
  | cons q rest =>
    obtain ⟨hq, -, hrest⟩ := h.list
    have hnodup := List.nodup_cons.mp h.list.nodup
    rw [← hq] at hrest hnodup
    refine ⟨hrest, fun u hu => h.addr u (List.mem_cons_of_mem q hu), fun u hu hmem => ?_⟩
    rcases List.mem_append.mp hu with hu | hu
    · exact h.live u hu (List.mem_cons_of_mem q hmem)
    · rw [List.mem_singleton.mp hu] at hmem
      exact hnodup.1 hmem

theorem holds_step {o : TaskOp} (h : ∃ xs, Holds s xs) (ho : s.Allowed o) (hs : s.step o = some s') :
    ∃ xs, Holds s' xs := by
  obtain ⟨xs, h⟩ := h
  cases o with
  | push task process next =>
    obtain ⟨hne, haddr, hout, rfl⟩ := ho
    rw [h.nodes_eq] at hout
    obtain ⟨s'', hs'', hholds, -⟩ := h.step_push hne haddr hout process
    obtain rfl := Option.some.inj (hs.symm.trans hs'')
    exact ⟨_, hholds⟩
  | pop =>
    by_cases hqueue : s.queue ≠ 0
    · have hpop : s.taskPop = (s.queue, { s with queue := s.next s.queue }) := if_pos hqueue
      simp only [step, hpop, if_pos hqueue] at hs
      obtain rfl := Option.some.inj hs
      exact ⟨xs.tail, h.pop hqueue⟩
    · have hpop : s.taskPop = (0, s) := if_neg hqueue
      rw [step, hpop] at hs
      obtain rfl := Option.some.inj hs
      exact ⟨xs, h⟩
  | remove process =>
    obtain ⟨s'', hs'', hholds, -⟩ := h.remove ho
    obtain rfl := Option.some.inj (hs.symm.trans hs'')
    exact ⟨_, hholds⟩

/-- In every run whose steps are allowed, the removal of a process is clean exactly if no two of its
tasks stand one behind the other. -/
theorem run_cleaned_iff {tasks : ℕ → Task} {os : List TaskOp}
    (h : Run step Allowed ⟨0, tasks, []⟩ os s) (p : ℕ) : s.Cleaned p ↔ s.NoNeighbours p := by
  have hempty : ∃ xs, Holds ⟨0, tasks, []⟩ xs := ⟨[], rfl, by simp, by simp⟩
  obtain ⟨xs, hxs⟩ := h.invariant (fun _ _ _ => holds_step) hempty
  exact cleaned_iff hxs p

/-- The tasks of two processes, pushed in turn. -/
theorem run_cleaned_iff_inTurn : ∃ s, Run step Allowed ⟨0, fun _ => ⟨0, 0⟩, []⟩
    [.push 16 7 0, .push 32 9 0, .push 48 7 0] s ∧ s.nodes = [16, 32, 48] ∧ s.Cleaned 7 := by
  have hempty : Holds ⟨0, fun _ => ⟨0, 0⟩, []⟩ [] := ⟨rfl, by decide, by decide⟩
  obtain ⟨s₁, hs₁, h₁, -, -⟩ := hempty.step_push (t := 16) (by decide) (by decide) (by decide) 7
  obtain ⟨s₂, hs₂, h₂, hnew₂, -⟩ := h₁.step_push (t := 32) (by decide) (by decide) (by decide) 9
  obtain ⟨s₃, hs₃, h₃, -, hold₃⟩ := h₂.step_push (t := 48) (by decide) (by decide) (by decide) 7
  have hrun : Run step Allowed ⟨0, fun _ => ⟨0, 0⟩, []⟩
      [.push 16 7 0, .push 32 9 0, .push 48 7 0] s₃ :=
    .cons ⟨by decide, by decide, by rw [hempty.nodes_eq]; decide, rfl⟩ hs₁
      (.cons ⟨by decide, by decide, by rw [h₁.nodes_eq]; decide, rfl⟩ hs₂
        (.single ⟨by decide, by decide, by rw [h₂.nodes_eq]; decide, rfl⟩ hs₃))
  -- 32 stands between the tasks of process 7
  have hbetween : (s₃.tasks 32).process = 9 := (hold₃ 32 (by decide)).trans hnew₂
  refine ⟨s₃, hrun, h₃.nodes_eq, (run_cleaned_iff hrun 7).mpr ?_⟩
  rw [NoNeighbours, h₃.nodes_eq]
  simp [hbetween]

def zeroedBlocks : ℕ → Task := fun _ => ⟨0, 0⟩

/-- The queue with one task of process 7. -/
def oneTask : TaskQueue := ⟨16, Function.update zeroedBlocks 16 ⟨7, 0⟩, []⟩

/-- The queue with another one behind it. -/
def twoTasks : TaskQueue :=
  ⟨16, Function.update (Function.update oneTask.tasks 32 ⟨7, 0⟩) 16 ⟨7, 32⟩, []⟩

theorem oneTask_holds : Holds oneTask [16] := ⟨⟨rfl, by decide, rfl⟩, by decide, by decide⟩

theorem oneTask_run : Run step Allowed ⟨0, zeroedBlocks, []⟩ [.push 16 7 0] oneTask :=
  .single ⟨by decide, by decide, by decide, rfl⟩ rfl

theorem twoTasks_holds : Holds twoTasks [16, 32] :=
  ⟨⟨rfl, by decide, rfl, by decide, rfl⟩, by decide, by decide⟩

theorem twoTasks_run : Run step Allowed ⟨0, zeroedBlocks, []⟩ [.push 16 7 0, .push 32 7 0] twoTasks := by
  have hout : 32 ∉ oneTask.nodes := by
    rw [oneTask_holds.nodes_eq]
    decide
  exact oneTask_run.trans (.single ⟨by decide, by decide, hout, rfl⟩ rfl)

/-- Of two tasks that were pushed one behind the other, the second one stays in the queue. -/
theorem second_task_stays : ¬ ∀ (tasks : ℕ → Task) (os : List TaskOp) (s : TaskQueue),
    (∀ o ∈ os, ∀ p, o ≠ .remove p) → Run step Allowed ⟨0, tasks, []⟩ os s → ∀ p, s.Cleaned p := by
  intro h
  have hbuilt : ∀ o ∈ [TaskOp.push 16 7 0, .push 32 7 0], ∀ p, o ≠ .remove p := by
    rintro o ho p rfl
    simp at ho
  have hchain := (cleaned_iff twoTasks_holds 7).mp (h _ _ _ hbuilt twoTasks_run 7)
  rw [NoNeighbours, twoTasks_holds.nodes_eq, List.isChain_pair] at hchain
  exact hchain ⟨rfl, rfl⟩

end TaskQueue

end DosKernel
