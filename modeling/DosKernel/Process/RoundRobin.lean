import DosKernel.Lib.Cyclic
import DosKernel.Process.Routing

/-! The order of `process_round_robin`. The search has two loops over the queue, one
behind the current process and one before it; together they go around the queue. -/

namespace DosKernel

open Lib

section Choice
variable {k : Kernel} {r : Registers} {p : ℕ} {xs ys zs : List ℕ}

theorem roundRobinNext_calling (h : Calling k (ys ++ k.currentProcess :: zs)) :
    roundRobinNext k = (zs ++ ys).find? (canRun k) := by
  have h0 : k.currentProcess ≠ 0 := h.list.ne_zero (by simp)
  have hys : ∀ q ∈ ys, decide (q ≠ k.currentProcess) = true := by
    intro q hq
    simpa using (mem_of_mem_rest h.list.nodup (List.mem_append_left zs hq)).2
  unfold roundRobinNext
  rw [if_pos ⟨h0, h.current_ne⟩, nodes_behind h.list h.address,
    nodes_eq_of_isList h.list h.address, List.takeWhile_append_of_pos hys,
    List.takeWhile_cons_of_neg (by simp), List.append_nil, List.find?_append]

/-- The switch to `p`, with its frame and its page directory. -/
theorem processRoundRobin_some (h : Calling k (ys ++ k.currentProcess :: zs))
    (hp : (zs ++ ys).find? (canRun k) = some p) :
    SwitchedTo (processUnload k r) (processRoundRobin k r).1 (processRoundRobin k r).2 p ∧
      (processRoundRobin k r).1.cr3 = (k.procs p).pdt := by
  have hmem : p ∈ ys ++ zs := by
    simpa [or_comm] using List.mem_of_find?_eq_some hp
  obtain ⟨hmem, hne⟩ := mem_of_mem_rest h.list.nodup hmem
  have hne' : (processUnload k r).currentProcess ≠ p := by
    rw [(processUnload_spec (r := r) h.roundRobin).current_eq]
    exact hne.symm
  have heq : processRoundRobin k r = processSwitch (processUnload k r) p r := by
    unfold processRoundRobin processDoRoundRobin
    rw [if_pos h.roundRobin, roundRobinNext_calling h, hp, Option.elim_some,
      if_neg (h.list.ne_zero hmem), if_pos h.current_ne]
  rw [heq]
  refine ⟨processSwitch_switched hne', ?_⟩
  have hpdt : ((processSwitch (processUnload k r) p r).1.procs p).pdt = (k.procs p).pdt := by
    rw [(processSwitch_same _ p r).field_eq Process.pdt fun _ _ _ _ => rfl,
      (processUnload_spec (r := r) h.roundRobin).table.field_eq Process.pdt fun _ _ _ _ => rfl]
  rw [processSwitch_eq hne', endSwitch, mmuLoadPdt_eq] at hpdt ⊢
  dsimp only at hpdt ⊢
  rwa [Kernel.setProc_self] at hpdt

theorem processRoundRobin_none (h : Calling k (ys ++ k.currentProcess :: zs))
    (hp : (zs ++ ys).find? (canRun k) = none) : processRoundRobin k r = (k, r) := by
  unfold processRoundRobin
  rw [if_pos h.roundRobin, roundRobinNext_calling h, hp, Option.elim_none]

end Choice

/-! ### Consecutive calls -/

/-- No process of the queue is suspended, and each but the current one is ready. -/
structure AllReady (k : Kernel) (xs : List ℕ) : Prop extends Calling k xs where
  suspended : ∀ q ∈ xs, (k.procs q).suspended = false
  ready : ∀ q ∈ xs, q ≠ k.currentProcess → (k.procs q).state = .ready

/-- `process_unload` of the running process and `process_round_robin`. -/
def unloadRoundRobin (k : Kernel) (r : Registers) : Kernel :=
  (processRoundRobin (processUnload k r) r).1

/-- Calls that find all processes of the queue `xs` ready, and the processes they make
current. Before the next call the kernel does anything but switch. -/
inductive Turns (xs : List ℕ) : Kernel → List ℕ → Prop
  | nil {k : Kernel} : Turns xs k []
  | cons {k k' : Kernel} {r : Registers} {ps : List ℕ} (ready : AllReady k xs)
      (stays : k'.currentProcess = (unloadRoundRobin k r).currentProcess)
      (rest : Turns xs k' ps) : Turns xs k (k'.currentProcess :: ps)

section Turns
variable {k : Kernel} {r : Registers} {w : ℕ} {xs ws us vs ps : List ℕ}

theorem AllReady.canRun_unload (h : AllReady k xs) {q : ℕ} (hq : q ∈ xs) :
    canRun (processUnload k r) q = true := by
  obtain ⟨htable, -, -, hstate⟩ := processUnload_spec (r := r) h.roundRobin
  have hsuspended := htable.field_eq Process.suspended (fun _ _ _ _ => rfl) q
  have hready : ((processUnload k r).procs q).state = .ready := by
    rw [hstate]
    split_ifs with hc
    · rfl
    · exact h.ready q hq hc
  simp [canRun, hsuspended, h.suspended q hq, hready]

/-- One call makes the next process around current. -/
theorem AllReady.next (h : AllReady k xs) (hcyc : CyclicFrom xs k.currentProcess (w :: ws)) :
    (unloadRoundRobin k r).currentProcess = w := by
  have hcurrent := (processUnload_spec (r := r) h.roundRobin).current_eq
  have hw : w ∈ xs := hcyc.perm.mem_iff.mp (by simp)
  obtain ⟨ys, zs, rfl, hsplit⟩ := hcyc
  have hcall : Calling (processUnload k r)
      (ys ++ (processUnload k r).currentProcess :: zs) := by
    rw [hcurrent]
    exact h.toCalling.unload r
  have hfind : (zs ++ ys).find? (canRun (processUnload k r)) = some w := by
    rw [← hsplit, List.find?_cons_of_pos (h.canRun_unload hw)]
  exact (processRoundRobin_some (r := r) hcall hfind).1.current

/-- In a queue of one process that stays current. -/
theorem AllReady.alone (h : AllReady k xs) (hcyc : CyclicFrom xs k.currentProcess []) :
    (unloadRoundRobin k r).currentProcess = k.currentProcess := by
  have hcurrent := (processUnload_spec (r := r) h.roundRobin).current_eq
  have hcall := h.toCalling.unload r
  rw [hcyc.singleton, ← hcurrent] at hcall
  unfold unloadRoundRobin
  rw [@processRoundRobin_none _ _ [] [] hcall (by simp), hcurrent]

/-- The calls go around the queue: `us` come next, and then `vs` before it starts again. -/
theorem Turns.eq (hturns : Turns xs k ps) (hcyc : CyclicFrom xs k.currentProcess ws)
    (hsplit : ws ++ [k.currentProcess] = us ++ vs) (hlen : ps.length = us.length) : ps = us := by
  induction hturns generalizing us vs ws with
  | nil => exact (List.length_eq_zero_iff.mp hlen.symm).symm
  | @cons k k' r ps ready stays rest ih =>
    cases us with
    | nil => simp at hlen
    | cons u us =>
      have hlen' : ps.length = us.length := by simpa using hlen
      cases ws with
      | nil =>
        obtain ⟨hu, hnil⟩ := List.cons.inj hsplit
        obtain ⟨rfl, rfl⟩ := List.append_eq_nil_iff.mp hnil.symm
        rw [stays, ready.alone hcyc, hu, List.length_eq_zero_iff.mp hlen']
      | cons w ws =>
        obtain ⟨rfl, hrest⟩ := List.cons.inj hsplit
        have hcur : k'.currentProcess = w := stays.trans (ready.next hcyc)
        have hnext : CyclicFrom xs k'.currentProcess (ws ++ [k.currentProcess]) :=
          hcur ▸ hcyc.next
        have hsplit' : ws ++ [k.currentProcess] ++ [k'.currentProcess] = us ++ (vs ++ [w]) := by
          rw [hcur, ← List.append_assoc]
          exact congrArg (· ++ [w]) hrest
        rw [hcur, ih hnext hsplit' hlen']

end Turns

/-- `process_round_robin` switches to the first process around the queue that can run and
changes nothing when there is none, and so as many calls as there are processes make
each of them current once. -/
theorem roundRobin_cyclic {k : Kernel} {ys zs : List ℕ}
    (h : Calling k (ys ++ k.currentProcess :: zs)) (r : Registers) :
    (∀ p, (zs ++ ys).find? (canRun k) = some p →
      SwitchedTo (processUnload k r) (processRoundRobin k r).1 (processRoundRobin k r).2 p ∧
        (processRoundRobin k r).1.cr3 = (k.procs p).pdt) ∧
    ((zs ++ ys).find? (canRun k) = none → processRoundRobin k r = (k, r)) ∧
    ∀ ps, Turns (ys ++ k.currentProcess :: zs) k ps →
      ps.length = (ys ++ k.currentProcess :: zs).length → ps.Perm (ys ++ k.currentProcess :: zs) := by
  refine ⟨fun p hp => processRoundRobin_some h hp, processRoundRobin_none h, ?_⟩
  intro ps hturns hlen
  have hcyc : CyclicFrom (ys ++ k.currentProcess :: zs) k.currentProcess (zs ++ ys) :=
    ⟨ys, zs, rfl, rfl⟩
  have hps : ps = zs ++ ys ++ [k.currentProcess] :=
    hturns.eq hcyc (List.append_nil _).symm (hlen.trans hcyc.perm.length_eq.symm)
  rw [hps]
  exact hcyc.perm

/-- 16 is running and 32 is ready: two calls make 32 and then 16 current. -/
theorem roundRobin_cyclic_of_two :
    (processRoundRobin callingProcess .zero).1.currentProcess = 32 ∧
    ∃ ps, Turns [16, 32] callingProcess ps ∧ ps.length = 2 ∧ ps.Perm [16, 32] := by
  obtain ⟨hsome, -, hturns⟩ :=
    @roundRobin_cyclic callingProcess [] [32] callingProcess_calling .zero
  have hready : AllReady callingProcess [16, 32] :=
    ⟨callingProcess_calling, by decide, by decide⟩
  have hready' : AllReady (unloadRoundRobin callingProcess .zero) [16, 32] := by
    refine ⟨⟨rfl, ⟨rfl, by decide, rfl, by decide, rfl⟩, by decide, ?_, ?_⟩, ?_, ?_⟩ <;> decide +kernel
  have h : Turns [16, 32] callingProcess [_, _] :=
    .cons hready rfl (.cons (r := .zero) hready' rfl .nil)
  exact ⟨(hsome 32 (by decide)).1.current, _, h, rfl, hturns _ h rfl⟩

end DosKernel
