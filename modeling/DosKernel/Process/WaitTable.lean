import DosKernel.Lib.Runs

/-! Waiting for processes, without a kernel. A table has processes with their pids; a
suspended process may wait for a pid. What a handler does to the table is a list of small
operations, and each of them says what happened. -/

namespace DosKernel

/-- Processes by their address; `queue` has those that are there. -/
structure WaitTable where
  queue : List ℕ
  pid : ℕ → ℕ
  waitpid : ℕ → ℕ
  suspended : ℕ → Bool

/-- `resume` clears the suspension of a process that slept in a call of its own. -/
inductive WaitAction
  | wait (q pid : ℕ)
  | wake (pid : ℕ)
  | remove (p : ℕ)
  | add (c pid : ℕ)
  | resume (p : ℕ)
  deriving DecidableEq

/-- The process `q` began to wait for `pid`, a process with `pid` was destroyed, or `q` was
made runnable because of `pid`. -/
inductive WaitEvent
  | waits (q pid : ℕ)
  | destroyed (pid : ℕ)
  | woken (q pid : ℕ)
  deriving DecidableEq

namespace WaitTable

/-- The process `q` is suspended and waits for `pid`. -/
def Waits (w : WaitTable) (q pid : ℕ) : Prop := w.suspended q = true ∧ w.waitpid q = pid

instance (w : WaitTable) (q pid : ℕ) : Decidable (w.Waits q pid) := inferInstanceAs (Decidable (_ ∧ _))

def apply (w : WaitTable) : WaitAction → WaitTable
  | .wait q pid =>
    { w with
      waitpid := Function.update w.waitpid q pid
      suspended := Function.update w.suspended q true }
  | .wake pid =>
    { w with
      waitpid := fun q => if q ∈ w.queue ∧ w.waitpid q = pid then 0 else w.waitpid q
      suspended := fun q => if q ∈ w.queue ∧ w.waitpid q = pid then false else w.suspended q }
  | .remove p => { w with queue := w.queue.erase p }
  | .add c pid =>
    { queue := w.queue ++ [c]
      pid := Function.update w.pid c pid
      waitpid := Function.update w.waitpid c 0
      suspended := Function.update w.suspended c false }
  | .resume p => { w with suspended := Function.update w.suspended p false }

section Add
variable (w : WaitTable) (c n : ℕ)

@[simp] theorem add_queue : (w.apply (.add c n)).queue = w.queue ++ [c] := rfl

@[simp] theorem add_pid : (w.apply (.add c n)).pid = Function.update w.pid c n := rfl

@[simp] theorem add_waitpid : (w.apply (.add c n)).waitpid = Function.update w.waitpid c 0 := rfl

@[simp] theorem add_suspended :
    (w.apply (.add c n)).suspended = Function.update w.suspended c false := rfl

end Add

/-- What an operation makes happen. -/
def emit (w : WaitTable) : WaitAction → List WaitEvent
  | .wait q pid => [.waits q pid]
  | .wake pid => (w.queue.filter fun q => w.Waits q pid).map (.woken · pid)
  | .remove p => [.destroyed (w.pid p)]
  | .add _ _ => []
  | .resume _ => []

def run (w : WaitTable) (ops : List WaitAction) : WaitTable := ops.foldl apply w

/-- What happens while the operations run. -/
def trace : WaitTable → List WaitAction → List WaitEvent
  | _, [] => []
  | w, op :: ops => w.emit op ++ (w.apply op).trace ops

/-! ### Nobody waits for a process that is gone -/

/-- Nobody is suspended for `pid`. -/
def NoneWaits (w : WaitTable) (pid : ℕ) : Prop := ∀ q ∈ w.queue, ¬ w.Waits q pid

section NoneWaits
variable {w : WaitTable} {p pid : ℕ}

theorem noneWaits_wake (w : WaitTable) (pid : ℕ) : (w.apply (.wake pid)).NoneWaits pid := by
  rintro q hq ⟨hs, hw⟩
  simp only [apply] at hq hs hw
  split_ifs at hs hw with hwoken
  exact hwoken ⟨hq, hw⟩

theorem NoneWaits.remove (h : w.NoneWaits pid) : (w.apply (.remove p)).NoneWaits pid :=
  fun q hq => h q (List.mem_of_mem_erase hq)

theorem NoneWaits.emit_wake (h : w.NoneWaits pid) : w.emit (.wake pid) = [] := by
  rw [emit, List.filter_eq_nil_iff.mpr fun q hq => by simpa using h q hq, List.map_nil]

end NoneWaits

/-- Every process waited for is there, except that `pid` may be gone. -/
def ServedBut (w : WaitTable) (pid : ℕ) : Prop :=
  ∀ q ∈ w.queue, w.suspended q = true → w.waitpid q ≠ 0 → w.waitpid q ≠ pid →
    ∃ t ∈ w.queue, w.pid t = w.waitpid q

/-- Every process waited for is there. -/
def Served (w : WaitTable) : Prop :=
  ∀ q ∈ w.queue, w.suspended q = true → w.waitpid q ≠ 0 → ∃ t ∈ w.queue, w.pid t = w.waitpid q

section Served
variable {w : WaitTable} {p q pid : ℕ}

theorem Served.wait (h : w.Served) (ht : ∃ t ∈ w.queue, w.pid t = pid) :
    (w.apply (.wait q pid)).Served := by
  intro x hx hs hw
  by_cases hxq : x = q
  · have hpid : (w.apply (.wait q pid)).waitpid x = pid := by
      rw [hxq]
      exact Function.update_self _ _ _
    rw [hpid]
    exact ht
  · have hpid : (w.apply (.wait q pid)).waitpid x = w.waitpid x := Function.update_of_ne hxq _ _
    have hsus : (w.apply (.wait q pid)).suspended x = w.suspended x := Function.update_of_ne hxq _ _
    rw [hpid] at hw ⊢
    rw [hsus] at hs
    exact h x hx hs hw

/-- A wake-up for `pid` leaves nobody waiting for it. -/
theorem ServedBut.wake (h : w.ServedBut pid) : (w.apply (.wake pid)).Served := by
  intro x hx hs hw
  simp only [apply] at hx hs hw ⊢
  split_ifs at hs hw ⊢ with hwoken
  have hne : w.waitpid x ≠ pid := fun he => hwoken ⟨hx, he⟩
  exact h x hx hs hw hne

theorem Served.wake (h : w.Served) : (w.apply (.wake pid)).Served :=
  ServedBut.wake fun x hx hs hw _ => h x hx hs hw

/-- Only those who waited for the process that is removed are left behind. -/
theorem Served.remove (h : w.Served) : (w.apply (.remove p)).ServedBut (w.pid p) := by
  intro x hx hs hw hne
  obtain ⟨t, ht, htx⟩ := h x (List.mem_of_mem_erase hx) hs hw
  have htp : t ≠ p := fun he => hne (by rw [← he]; exact htx.symm)
  exact ⟨t, (List.mem_erase_of_ne htp).mpr ht, htx⟩

/-- Nobody else waits for the process that is removed. -/
theorem Served.remove_of_no_waiter (h : w.Served) (hnodup : w.queue.Nodup)
    (hno : ∀ q ∈ w.queue, q ≠ p → ¬ w.Waits q (w.pid p)) : (w.apply (.remove p)).Served := by
  intro x hx hs hw
  have hmem := hnodup.mem_erase_iff.mp hx
  exact h.remove x hx hs hw fun he => hno x hmem.2 hmem.1 ⟨hs, he⟩

theorem Served.wake_remove (h : w.Served) (hnodup : w.queue.Nodup) (hp : w.pid p = pid) :
    ((w.apply (.wake pid)).apply (.remove p)).Served := by
  refine h.wake.remove_of_no_waiter hnodup fun q hq _ hwaits => ?_
  have hpid : (w.apply (.wake pid)).pid p = pid := hp
  rw [hpid] at hwaits
  exact noneWaits_wake w pid q hq hwaits

theorem Served.add (h : w.Served) {c : ℕ} (hc : c ∉ w.queue) : (w.apply (.add c pid)).Served := by
  intro x hx hs hw
  have hxc : x ≠ c := by
    rintro rfl
    simp [apply] at hs
  have hx' : x ∈ w.queue := by simpa [apply, hxc] using hx
  simp only [apply, Function.update_of_ne hxc] at hs hw ⊢
  obtain ⟨t, ht, htx⟩ := h x hx' hs hw
  have htc : t ≠ c := fun he => hc (he ▸ ht)
  refine ⟨t, List.mem_append_left _ ht, ?_⟩
  rw [Function.update_of_ne htc]
  exact htx

theorem Served.resume (h : w.Served) : (w.apply (.resume p)).Served := by
  intro x hx hs hw
  have hxp : x ≠ p := by
    rintro rfl
    simp [apply] at hs
  simp only [apply, Function.update_of_ne hxp] at hs
  exact h x hx hs hw

end Served

end WaitTable

/-! ### Woken behind the destruction -/

/-- Whoever was woken because of `pid` was woken behind the destruction of a process with
`pid`, and had begun to wait before that. -/
def WokenBehind (log : List WaitEvent) : Prop :=
  ∀ before q pid behind, log = before ++ .woken q pid :: behind →
    ∃ xs ys, before = xs ++ .destroyed pid :: ys ∧ ∀ n, .waits q n ∉ ys

/-- Events without a wake-up may follow. -/
theorem WokenBehind.append {log es : List WaitEvent} (h : WokenBehind log)
    (hes : ∀ q pid, .woken q pid ∉ es) : WokenBehind (log ++ es) := by
  intro before q pid behind he
  rcases List.append_eq_append_iff.mp he with ⟨ms, hms, he'⟩ | ⟨ms, hms, he'⟩
  · exact absurd (he' ▸ by simp) (hes q pid)
  · cases ms with
    | nil => exact absurd (by rw [List.nil_append] at he'; rw [← he']; simp) (hes q pid)
    | cons m ms =>
      rw [List.cons_append, List.cons.injEq] at he'
      obtain ⟨rfl, -⟩ := he'
      exact h before q pid ms hms

/-- A destruction and the wake-ups that follow it at once. -/
theorem WokenBehind.destroy_wake {log : List WaitEvent} (h : WokenBehind log) (pid : ℕ)
    (qs : List ℕ) : WokenBehind (log ++ .destroyed pid :: qs.map (.woken · pid)) := by
  intro before q n behind he
  rcases List.append_eq_append_iff.mp he with ⟨ms, hms, he'⟩ | ⟨ms, hms, he'⟩
  · cases ms with
    | nil => simp at he'
    | cons m ms =>
      rw [List.cons_append, List.cons.injEq] at he'
      obtain ⟨rfl, he'⟩ := he'
      obtain ⟨rs, rest, rfl, rfl, hrest⟩ := List.map_eq_append_iff.mp he'
      obtain ⟨x, rest', rfl, hx, -⟩ := List.map_eq_cons_iff.mp hrest
      obtain ⟨rfl, rfl⟩ := WaitEvent.woken.inj hx
      exact ⟨log, _, hms, fun n => by simp⟩
  · cases ms with
    | nil => simp at he'
    | cons m ms =>
      rw [List.cons_append, List.cons.injEq] at he'
      obtain ⟨rfl, -⟩ := he'
      exact h before q n ms hms

end DosKernel
