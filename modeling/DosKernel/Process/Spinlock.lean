import DosKernel.Lib.Locking
import DosKernel.Lib.Simulation

/-! The spinlock, instruction by instruction. Any number of contexts call operations of the form
`spinlock_lock`, steps on shared data, `spinlock_unlock`, and their instructions interleave in
every order. `edx` holds the address of the lock; the hints `xacquire` and `xrelease` change
nothing. The word that `spinlock_unlock` stores is half the size of the lock. -/

namespace DosKernel

/-- The registers of `spinlock_test_and_set` besides `edx`, and the zero flag. -/
structure LockRegisters where
  eax : BitVec 32
  ecx : BitVec 32
  zf : Bool

/-- The next instruction of `spinlock_test_and_set`. -/
inductive LockPc
  | loadVal | loadPtr | xorEax | cmpxchg | jeOut | movEax | testEax | jzRetry | repNop | jmpPause
  | ret
  deriving DecidableEq

/-- The next instruction of `spinlock_release`. -/
inductive ReleasePc
  | loadPtr | storeWord | ret
  deriving DecidableEq

/-- One instruction of `spinlock_test_and_set(&lock->locked, 1)`: what becomes of the lock, the
registers and the program counter, which is gone after the last one. -/
def spinlockTestAndSet (locked : BitVec 32) (r : LockRegisters) :
    LockPc → BitVec 32 × LockRegisters × Option LockPc
  | .loadVal => (locked, { r with ecx := 1#32 }, some .loadPtr)
  | .loadPtr => (locked, r, some .xorEax)
  | .xorEax => (locked, { r with eax := 0#32, zf := true }, some .cmpxchg)
  | .cmpxchg =>
    if locked = r.eax then (r.ecx, { r with zf := true }, some .jeOut)
    else (locked, { r with eax := locked, zf := false }, some .jeOut)
  | .jeOut => (locked, r, some (if r.zf then .ret else .movEax))
  | .movEax => (locked, { r with eax := locked }, some .testEax)
  | .testEax => (locked, { r with zf := r.eax &&& r.eax == 0#32 }, some .jzRetry)
  | .jzRetry => (locked, r, some (if r.zf then .xorEax else .repNop))
  | .repNop => (locked, r, some .jmpPause)
  | .jmpPause => (locked, r, some .movEax)
  | .ret => (locked, r, none)

/-- `mov word [edx], 0`: the upper half of the lock stays. -/
def storeZeroWord (locked : BitVec 32) : BitVec 32 := locked &&& 0xFFFF0000#32

def spinlockRelease (locked : BitVec 32) : ReleasePc → BitVec 32 × Option ReleasePc
  | .loadPtr => (locked, some .storeWord)
  | .storeWord => (storeZeroWord locked, some .ret)
  | .ret => (locked, none)

inductive LockPoint (ω L R : Type*)
  | outside
  | acquiring (op : ω) (pc : LockPc)
  | inside (op : ω) (l : L)
  | releasing (op : ω) (r : R) (pc : ReleasePc)

variable {ι ω L R S : Type*}

structure LockContext (ω L R : Type*) where
  point : LockPoint ω L R
  regs : LockRegisters

/-- `spinlock_lock` goes on, or returns to the operation. -/
def LockContext.locking (M : Lib.Routine ω L R S) (op : ω) (regs : LockRegisters) :
    Option LockPc → LockContext ω L R
  | some pc => ⟨.acquiring op pc, regs⟩
  | none => ⟨.inside op (M.entry op), regs⟩

/-- `spinlock_unlock` goes on, or returns. -/
def LockContext.unlocking (op : ω) (r : R) (regs : LockRegisters) :
    Option ReleasePc → LockContext ω L R
  | some pc => ⟨.releasing op r pc, regs⟩
  | none => ⟨.outside, regs⟩

/-- The lock, the contexts, the data behind the lock, and the operations that ended. -/
structure SpinState (ι ω L R S : Type*) where
  locked : BitVec 32
  context : ι → LockContext ω L R
  shared : S
  log : List (ι × ω × R)

/-- A context calls an operation, or performs its next instruction. -/
inductive SpinEvent (ι ω : Type*)
  | call (i : ι) (op : ω)
  | next (i : ι)

variable [DecidableEq ι]

namespace SpinState

/-- Context `i` at another point; the lock as given. -/
def put (s : SpinState ι ω L R S) (i : ι) (locked : BitVec 32) (c : LockContext ω L R) :
    SpinState ι ω L R S :=
  { s with locked := locked, context := Function.update s.context i c }

@[simp] theorem put_context_self (s : SpinState ι ω L R S) (i : ι) (locked : BitVec 32)
    (c : LockContext ω L R) : (s.put i locked c).context i = c := by
  simp [put]

theorem put_context_of_ne (s : SpinState ι ω L R S) {i j : ι} (hj : j ≠ i) (locked : BitVec 32)
    (c : LockContext ω L R) : (s.put i locked c).context j = s.context j := by
  simp [put, hj]

end SpinState

/-- What a step of the operation does to its context, the data and the log. -/
def SpinState.advanced (s : SpinState ι ω L R S) (i : ι) (op : ω) (regs : LockRegisters) :
    (L ⊕ R) × S → SpinState ι ω L R S
  | (.inl l, d) => { s.put i s.locked ⟨.inside op l, regs⟩ with shared := d }
  | (.inr r, d) =>
    { s.put i s.locked ⟨.releasing op r .loadPtr, regs⟩ with
      shared := d
      log := s.log ++ [(i, op, r)] }

/-- One step of the contexts. A context outside may call; the others go on. -/
def spinStep (M : Lib.Routine ω L R S) (s : SpinState ι ω L R S) :
    SpinEvent ι ω → Option (SpinState ι ω L R S)
  | .call i op =>
    match (s.context i).point with
    | .outside => some (s.put i s.locked ⟨.acquiring op .loadVal, (s.context i).regs⟩)
    | _ => none
  | .next i =>
    match (s.context i).point with
    | .outside => none
    | .acquiring op pc =>
      let x := spinlockTestAndSet s.locked (s.context i).regs pc
      some (s.put i x.1 (.locking M op x.2.1 x.2.2))
    | .inside op l => some (s.advanced i op (s.context i).regs (M.advance l s.shared))
    | .releasing op r pc =>
      let x := spinlockRelease s.locked pc
      some (s.put i x.1 (.unlocking op r (s.context i).regs x.2))

/-! ### Who has the lock -/

namespace LockContext

/-- What a context that has the lock does with it: the exchange succeeded and the word is not
stored yet. -/
def grip (M : Lib.Routine ω L R S) (c : LockContext ω L R) : Option (ω × (L ⊕ R)) :=
  match c.point with
  | .outside => none
  | .acquiring op pc =>
    if pc = .ret ∨ pc = .jeOut ∧ c.regs.zf = true then some (op, .inl (M.entry op)) else none
  | .inside op l => some (op, .inl l)
  | .releasing op r pc => if pc = .ret then none else some (op, .inr r)

/-- The registers at the exchange. -/
def Ready (c : LockContext ω L R) : Prop :=
  match c.point with
  | .acquiring _ pc => (pc ≠ .loadVal → c.regs.ecx = 1#32) ∧ (pc = .cmpxchg → c.regs.eax = 0#32)
  | _ => True

end LockContext

/-- The lock is a set flag of the abstract one, and the contexts with a grip are those inside. -/
structure SpinRel (M : Lib.Routine ω L R S) (s : SpinState ι ω L R S) (g : Lib.Guarded ι ω L R S) :
    Prop where
  shared_eq : s.shared = g.shared
  log_eq : s.log = g.log
  locked_eq : s.locked = if g.inside.isSome then 1#32 else 0#32
  grip_iff : ∀ i x, (s.context i).grip M = some x ↔ g.inside = some (i, x)
  ready : ∀ i, (s.context i).Ready

namespace SpinRel

variable {M : Lib.Routine ω L R S} {s s' : SpinState ι ω L R S} {g g' : Lib.Guarded ι ω L R S}
  {i : ι} {c : LockContext ω L R}

theorem grip_update (h : SpinRel M s g) {y : Option (ι × ω × (L ⊕ R))}
    (hself : ∀ x, c.grip M = some x ↔ y = some (i, x))
    (hother : ∀ j x, j ≠ i → (g.inside = some (j, x) ↔ y = some (j, x))) :
    ∀ j x, (Function.update s.context i c j).grip M = some x ↔ y = some (j, x) := by
  intro j x
  by_cases hj : j = i
  · subst hj
    rw [Function.update_self]
    exact hself x
  · rw [Function.update_of_ne hj, h.grip_iff, hother j x hj]

theorem ready_update (h : SpinRel M s g) (hc : c.Ready) :
    ∀ j, (Function.update s.context i c j).Ready := by
  intro j
  by_cases hj : j = i
  · subst hj
    rwa [Function.update_self]
  · rw [Function.update_of_ne hj]
    exact h.ready j

/-- A step of which the abstract system sees nothing. -/
theorem stutter (h : SpinRel M s g) (hgrip : c.grip M = (s.context i).grip M) (hc : c.Ready) :
    SpinRel M (s.put i s.locked c) g where
  shared_eq := h.shared_eq
  log_eq := h.log_eq
  locked_eq := h.locked_eq
  grip_iff := h.grip_update (fun x => by rw [hgrip, h.grip_iff]) fun _ _ _ => Iff.rfl
  ready := h.ready_update hc

/-- The exchange succeeds: nobody is inside, and the context enters. -/
theorem enter (h : SpinRel M s g) (hin : g.inside = none) {op : ω}
    (hgrip : c.grip M = some (op, .inl (M.entry op))) (hc : c.Ready) :
    SpinRel M (s.put i 1#32 c) { g with inside := some (i, op, .inl (M.entry op)) } where
  shared_eq := h.shared_eq
  log_eq := h.log_eq
  locked_eq := rfl
  grip_iff := by
    apply h.grip_update
    · intro x
      simp [hgrip]
    · intro j x hj
      simp [hin, Ne.symm hj]
  ready := h.ready_update hc

/-- The word is stored: the context leaves. -/
theorem leave (h : SpinRel M s g) {x : ω × (L ⊕ R)} (hin : g.inside = some (i, x))
    (hgrip : c.grip M = none) (hc : c.Ready) :
    SpinRel M (s.put i 0#32 c) { g with inside := none } where
  shared_eq := h.shared_eq
  log_eq := h.log_eq
  locked_eq := rfl
  grip_iff := by
    apply h.grip_update
    · simp [hgrip]
    · intro j y hj
      simp [hin, Ne.symm hj]
  ready := h.ready_update hc

/-- A step of the operation inside. -/
theorem advance (h : SpinRel M s g) {op : ω} {l : L} (hin : g.inside = some (i, op, .inl l))
    (regs : LockRegisters) (y : (L ⊕ R) × S) :
    SpinRel M (s.advanced i op regs y) (g.advanced i op y) := by
  have hlocked : s.locked = 1#32 := by simp [h.locked_eq, hin]
  rcases y with ⟨l' | r, d⟩
  · refine ⟨rfl, h.log_eq, hlocked, h.grip_update ?_ ?_, h.ready_update trivial⟩
    · simp [LockContext.grip, Lib.Guarded.advanced]
    · intro j x hj
      simp [hin, Ne.symm hj, Lib.Guarded.advanced]
  · refine ⟨rfl, congrArg (· ++ _) h.log_eq, hlocked, h.grip_update ?_ ?_, h.ready_update trivial⟩
    · simp [LockContext.grip, Lib.Guarded.advanced]
    · intro j x hj
      simp [hin, Ne.symm hj, Lib.Guarded.advanced]

omit [DecidableEq ι] in
/-- Nobody is inside when the lock is free. -/
theorem free_iff (h : SpinRel M s g) : s.locked = 0#32 ↔ g.inside = none := by
  rw [h.locked_eq]
  rcases g.inside with _ | x <;> simp

end SpinRel

/-- An instruction of `spinlock_test_and_set` that is not a successful exchange: the lock stays,
and the grip of the context too. -/
theorem spinlockTestAndSet_hidden (M : Lib.Routine ω L R S) {op : ω} {locked : BitVec 32}
    {r : LockRegisters} {pc : LockPc}
    (hready : LockContext.Ready (L := L) (R := R) ⟨.acquiring op pc, r⟩)
    (hpc : pc = .cmpxchg → locked ≠ 0#32) :
    (spinlockTestAndSet locked r pc).1 = locked ∧
    (LockContext.locking M op (spinlockTestAndSet locked r pc).2.1
      (spinlockTestAndSet locked r pc).2.2).grip M =
        LockContext.grip M ⟨.acquiring op pc, r⟩ ∧
    (LockContext.locking M op (spinlockTestAndSet locked r pc).2.1
      (spinlockTestAndSet locked r pc).2.2).Ready := by
  cases pc with
  | cmpxchg =>
    have hecx := hready.1 (by simp)
    have hne : locked ≠ r.eax := by
      rw [hready.2 rfl]
      exact hpc rfl
    simp_all [spinlockTestAndSet, LockContext.locking, LockContext.grip, LockContext.Ready]
  | jeOut =>
    have hecx := hready.1 (by simp)
    by_cases hzf : r.zf <;>
      simp_all [spinlockTestAndSet, LockContext.locking, LockContext.grip, LockContext.Ready]
  | jzRetry =>
    have hecx := hready.1 (by simp)
    by_cases hzf : r.zf <;>
      simp_all [spinlockTestAndSet, LockContext.locking, LockContext.grip, LockContext.Ready]
  | loadVal => simp [spinlockTestAndSet, LockContext.locking, LockContext.grip, LockContext.Ready]
  | _ =>
    have hecx := hready.1 (by simp)
    simp_all [spinlockTestAndSet, LockContext.locking, LockContext.grip, LockContext.Ready]

namespace SpinRel

variable {M : Lib.Routine ω L R S} {s : SpinState ι ω L R S} {g : Lib.Guarded ι ω L R S} {i : ι}
  {op : ω} {regs : LockRegisters}

/-- A step of the abstract lock, or none. -/
def Answer (M : Lib.Routine ω L R S) (g : Lib.Guarded ι ω L R S) (s : SpinState ι ω L R S) : Prop :=
  ∃ ps b, Lib.Run (Lib.guardedStep M) Lib.Anything g ps b ∧ SpinRel M s b

omit [DecidableEq ι] in
theorem answer_stutter (h : SpinRel M s g) : Answer M g s := ⟨[], g, .nil g, h⟩

omit [DecidableEq ι] in
theorem answer_step {e : Lib.LockEvent ι ω} {g' : Lib.Guarded ι ω L R S}
    (he : Lib.guardedStep M g e = some g') (h : SpinRel M s g') : Answer M g s :=
  ⟨[e], g', .single trivial he, h⟩

theorem answer_acquiring (h : SpinRel M s g) {pc : LockPc}
    (hc : s.context i = ⟨.acquiring op pc, regs⟩) :
    Answer M g (s.put i (spinlockTestAndSet s.locked regs pc).1
      (.locking M op (spinlockTestAndSet s.locked regs pc).2.1
        (spinlockTestAndSet s.locked regs pc).2.2)) := by
  have hready := h.ready i
  rw [hc] at hready
  by_cases hx : pc = .cmpxchg ∧ s.locked = 0#32
  · obtain ⟨rfl, hfree⟩ := hx
    have hin := h.free_iff.mp hfree
    have heax : regs.eax = 0#32 := hready.2 rfl
    have hecx : regs.ecx = 1#32 := hready.1 (by simp)
    have he : Lib.guardedStep M g (.enter i op) =
        some { g with inside := some (i, op, .inl (M.entry op)) } := by simp [Lib.guardedStep, hin]
    simp only [spinlockTestAndSet, heax, hfree, if_true, hecx]
    refine answer_step he (h.enter hin ?_ ?_)
    · simp [LockContext.locking, LockContext.grip]
    · simp [LockContext.locking, LockContext.Ready]
  · obtain ⟨hlocked, hg, hr⟩ := spinlockTestAndSet_hidden M hready fun hpc hz => hx ⟨hpc, hz⟩
    rw [hlocked]
    exact answer_stutter (h.stutter (by rw [hg, hc]) hr)

theorem answer_inside (h : SpinRel M s g) {l : L} (hc : s.context i = ⟨.inside op l, regs⟩) :
    Answer M g (s.advanced i op regs (M.advance l s.shared)) := by
  have hin : g.inside = some (i, op, .inl l) := by
    rw [← h.grip_iff, hc, LockContext.grip]
  have he : Lib.guardedStep M g .advance = some (g.advanced i op (M.advance l g.shared)) := by
    simp [Lib.guardedStep, hin]
  rw [h.shared_eq]
  exact answer_step he (h.advance hin _ _)

theorem answer_releasing (h : SpinRel M s g) {r : R} {pc : ReleasePc}
    (hc : s.context i = ⟨.releasing op r pc, regs⟩) :
    Answer M g (s.put i (spinlockRelease s.locked pc).1
      (.unlocking op r regs (spinlockRelease s.locked pc).2)) := by
  cases pc with
  | loadPtr =>
    apply answer_stutter
    apply h.stutter
    · simp [hc, spinlockRelease, LockContext.unlocking, LockContext.grip]
    · trivial
  | storeWord =>
    have hin : g.inside = some (i, op, .inr r) := by
      rw [← h.grip_iff, hc]
      simp [LockContext.grip]
    have hlocked : s.locked = 1#32 := by simp [h.locked_eq, hin]
    have he : Lib.guardedStep M g .leave = some { g with inside := none } := by
      simp [Lib.guardedStep, hin]
    simp only [spinlockRelease, hlocked]
    exact answer_step he (h.leave hin rfl trivial)
  | ret =>
    apply answer_stutter
    apply h.stutter
    · simp [hc, spinlockRelease, LockContext.unlocking, LockContext.grip]
    · trivial

end SpinRel

/-- The instructions of the lock behave as the abstract lock, which is entered by a successful
exchange and left by the store. -/
theorem spin_simulates (M : Lib.Routine ω L R S) : Lib.Simulates (spinStep (ι := ι) M) Lib.Anything
    (Lib.guardedStep M) Lib.Anything (SpinRel M) := by
  intro s g e s' h _ hs
  cases e with
  | call i op =>
    simp only [spinStep] at hs
    split at hs
    next hp =>
      obtain rfl := Option.some.inj hs
      apply SpinRel.answer_stutter
      apply h.stutter
      · simp [LockContext.grip, hp]
      · simp [LockContext.Ready]
    next => cases hs
  | next i =>
    rcases hc : s.context i with ⟨point, regs⟩
    simp only [spinStep, hc] at hs
    cases point with
    | outside => cases hs
    | acquiring op pc =>
      obtain rfl := Option.some.inj hs
      exact h.answer_acquiring hc
    | inside op l =>
      obtain rfl := Option.some.inj hs
      exact h.answer_inside hc
    | releasing op r pc =>
      obtain rfl := Option.some.inj hs
      exact h.answer_releasing hc

/-! ### Exclusion -/

/-- `spinlock_init` was called, and no context has called an operation yet. -/
structure SpinState.Initial (s : SpinState ι ω L R S) (d : S) : Prop where
  locked_eq : s.locked = 0#32
  outside : ∀ i, (s.context i).point = .outside
  shared_eq : s.shared = d
  log_eq : s.log = []

/-- The context is between the exchange that succeeded and the store that gives the lock up. -/
def LockContext.Has (M : Lib.Routine ω L R S) (c : LockContext ω L R) : Prop := (c.grip M).isSome

namespace SpinRel

variable {M : Lib.Routine ω L R S} {s : SpinState ι ω L R S} {g : Lib.Guarded ι ω L R S} {i j : ι}

omit [DecidableEq ι] in
theorem has_iff (h : SpinRel M s g) : (s.context i).Has M ↔ ∃ x, g.inside = some (i, x) := by
  simp only [LockContext.Has, Option.isSome_iff_exists, h.grip_iff]

omit [DecidableEq ι] in
theorem has_unique (h : SpinRel M s g) (hi : (s.context i).Has M) (hj : (s.context j).Has M) :
    i = j := by
  obtain ⟨x, hx⟩ := h.has_iff.mp hi
  obtain ⟨y, hy⟩ := h.has_iff.mp hj
  rw [hx] at hy
  exact (Prod.mk.inj (Option.some.inj hy)).1

omit [DecidableEq ι] in
theorem inside_eq_none (h : SpinRel M s g) (hnone : ∀ i, ¬ (s.context i).Has M) :
    g.inside = none := by
  rcases hin : g.inside with _ | ⟨i, x⟩
  · rfl
  · exact absurd (h.has_iff.mpr ⟨x, hin⟩) (hnone i)

end SpinRel

omit [DecidableEq ι] in
theorem SpinState.Initial.rel {M : Lib.Routine ω L R S} {s : SpinState ι ω L R S} {d : S}
    (h : s.Initial d) : SpinRel M s ⟨none, d, []⟩ where
  shared_eq := h.shared_eq
  log_eq := h.log_eq
  locked_eq := h.locked_eq
  grip_iff i x := by simp [LockContext.grip, h.outside i]
  ready i := by simp [LockContext.Ready, h.outside i]

/-- Every reachable state is that of an abstract lock. -/
theorem exists_rel_of_run {M : Lib.Routine ω L R S} {s₀ s : SpinState ι ω L R S} {d : S}
    {os : List (SpinEvent ι ω)} (hinit : s₀.Initial d)
    (hrun : Lib.Run (spinStep M) Lib.Anything s₀ os s) :
    ∃ ps g, Lib.Run (Lib.guardedStep M) Lib.Anything ⟨none, d, []⟩ ps g ∧ SpinRel M s g :=
  (spin_simulates M).run hrun hinit.rel

theorem spin_serializable {M : Lib.Routine ω L R S} {apply : ω → S → R × S}
    (hM : M.Implements apply) {s₀ s : SpinState ι ω L R S} {d : S} (hinit : s₀.Initial d)
    {os : List (SpinEvent ι ω)} (hrun : Lib.Run (spinStep M) Lib.Anything s₀ os s) :
    ∃ t, Lib.Serial apply d s.log t ∧ ((∀ i, ¬ (s.context i).Has M) → s.shared = t) := by
  obtain ⟨ps, g, hg, hrel⟩ := exists_rel_of_run hinit hrun
  obtain ⟨t, hlog, hagrees⟩ := Lib.Guarded.serializable_of_run hM hg
  refine ⟨t, ?_, fun hnone => ?_⟩
  · rwa [hrel.log_eq]
  · rw [hrel.shared_eq]
    simpa only [Lib.Guarded.Agrees, hrel.inside_eq_none hnone] using hagrees

/-- However the instructions of the contexts interleave, the lock is 0 or 1; it is 1 exactly
while some context has it, and never two have it. The operations that ended did what they do one
after the other, and while no context has the lock the data are as these left them. -/
theorem spinlock_excludes {M : Lib.Routine ω L R S} {apply : ω → S → R × S}
    (hM : M.Implements apply) {s₀ s : SpinState ι ω L R S} {d : S} (hinit : s₀.Initial d)
    {os : List (SpinEvent ι ω)} (hrun : Lib.Run (spinStep M) Lib.Anything s₀ os s) :
    (s.locked = 0#32 ∨ s.locked = 1#32) ∧
    (s.locked = 1#32 ↔ ∃ i, (s.context i).Has M) ∧
    (∀ i j, (s.context i).Has M → (s.context j).Has M → i = j) ∧
    ∃ t, Lib.Serial apply d s.log t ∧ ((∀ i, ¬ (s.context i).Has M) → s.shared = t) := by
  obtain ⟨ps, g, hg, hrel⟩ := exists_rel_of_run hinit hrun
  refine ⟨?_, ?_, fun i j => hrel.has_unique, spin_serializable hM hinit hrun⟩
  · rw [hrel.locked_eq]
    split_ifs <;> simp
  · simp only [hrel.has_iff, hrel.locked_eq]
    rcases g.inside with _ | ⟨i, x⟩ <;> simp

/-- A counter that is read in one step and written in the next. -/
def counter : Lib.Routine Unit (Option ℕ) ℕ ℕ where
  entry _ := none
  advance
    | none, n => (.inl (some n), n)
    | some k, _ => (.inr k, k + 1)

theorem counter_implements : counter.Implements fun _ n => (n, n + 1) :=
  fun _ _ => .later rfl (.now rfl)

/-- Two contexts at a free lock. -/
def counterStart : SpinState Bool Unit (Option ℕ) ℕ ℕ :=
  ⟨0#32, fun _ => ⟨.outside, ⟨7#32, 7#32, false⟩⟩, 0, []⟩

theorem counterStart_initial : counterStart.Initial 0 := ⟨rfl, fun _ => rfl, rfl, rfl⟩

/-- The second context comes while the first one has the lock, and waits. -/
def counterRace : List (SpinEvent Bool Unit) :=
  [.call false (), .call true ()] ++ List.replicate 4 (.next false) ++ List.replicate 10 (.next true)

theorem spinlock_excludes_counter : ∃ s, Lib.Run (spinStep counter) Lib.Anything counterStart
      (counterRace ++ List.replicate 7 (.next false) ++ List.replicate 12 (.next true)) s ∧
    s.shared = 2 ∧ (s.locked = 0#32 ∨ s.locked = 1#32) ∧
    ∃ t, Lib.Serial (fun _ n => (n, n + 1)) 0 s.log t := by
  have hrun : Lib.Run (spinStep counter) Lib.Anything counterStart
      (counterRace ++ List.replicate 7 (.next false) ++ List.replicate 12 (.next true)) _ :=
    .of_checked rfl
  obtain ⟨hlocked, -, -, t, ht, -⟩ := spinlock_excludes counter_implements counterStart_initial hrun
  exact ⟨_, hrun, rfl, hlocked, t, ht⟩

/-! ### One context by itself -/

/-- A run in which only context `i` moves. -/
def Solo (M : Lib.Routine ω L R S) (i : ι) (s t : SpinState ι ω L R S) : Prop :=
  (∃ n, Lib.Run (spinStep M) Lib.Anything s (List.replicate n (.next i)) t) ∧
    ∀ j, j ≠ i → t.context j = s.context j

namespace Solo

variable {M : Lib.Routine ω L R S} {s t u : SpinState ι ω L R S} {i : ι} {op : ω}
  {regs : LockRegisters}

theorem refl (s : SpinState ι ω L R S) : Solo M i s s := ⟨⟨0, .nil s⟩, fun _ _ => rfl⟩

theorem trans (h : Solo M i s t) (h' : Solo M i t u) : Solo M i s u := by
  obtain ⟨⟨m, hm⟩, hst⟩ := h
  obtain ⟨⟨n, hn⟩, htu⟩ := h'
  refine ⟨⟨m + n, ?_⟩, fun j hj => (htu j hj).trans (hst j hj)⟩
  rw [List.replicate_add]
  exact hm.trans hn

theorem acquiring {pc : LockPc} (hc : s.context i = ⟨.acquiring op pc, regs⟩) :
    Solo M i s (s.put i (spinlockTestAndSet s.locked regs pc).1
      (.locking M op (spinlockTestAndSet s.locked regs pc).2.1
        (spinlockTestAndSet s.locked regs pc).2.2)) := by
  refine ⟨⟨1, .single trivial ?_⟩, fun j hj => ?_⟩
  · simp [spinStep, hc]
  · exact s.put_context_of_ne hj _ _

theorem inside {l : L} (hc : s.context i = ⟨.inside op l, regs⟩) :
    Solo M i s (s.advanced i op regs (M.advance l s.shared)) := by
  refine ⟨⟨1, .single trivial ?_⟩, fun j hj => ?_⟩
  · simp [spinStep, hc]
  · rcases M.advance l s.shared with ⟨l' | r, d⟩ <;>
      simp [SpinState.advanced, SpinState.put, hj]

theorem releasing {r : R} {pc : ReleasePc} (hc : s.context i = ⟨.releasing op r pc, regs⟩) :
    Solo M i s (s.put i (spinlockRelease s.locked pc).1
      (.unlocking op r regs (spinlockRelease s.locked pc).2)) := by
  refine ⟨⟨1, .single trivial ?_⟩, fun j hj => ?_⟩
  · simp [spinStep, hc]
  · exact s.put_context_of_ne hj _ _

/-- `spinlock_unlock` returns. -/
theorem release {r : R} {pc : ReleasePc} (hc : s.context i = ⟨.releasing op r pc, regs⟩) :
    ∃ t, Solo M i s t ∧ (t.context i).point = .outside := by
  have hret : ∀ u : SpinState ι ω L R S, u.context i = ⟨.releasing op r .ret, regs⟩ →
      ∃ t, Solo M i u t ∧ (t.context i).point = .outside := fun u hu =>
    ⟨_, releasing hu, by simp [spinlockRelease, LockContext.unlocking]⟩
  have hstore : ∀ u : SpinState ι ω L R S, u.context i = ⟨.releasing op r .storeWord, regs⟩ →
      ∃ t, Solo M i u t ∧ (t.context i).point = .outside := by
    intro u hu
    obtain ⟨t, ht, hout⟩ := hret _ (u.put_context_self i _ _)
    exact ⟨t, (releasing hu).trans ht, hout⟩
  cases pc with
  | ret => exact hret s hc
  | storeWord => exact hstore s hc
  | loadPtr =>
    obtain ⟨t, ht, hout⟩ := hstore _ (s.put_context_self i _ _)
    exact ⟨t, (releasing hc).trans ht, hout⟩

/-- An operation that ends by itself ends, and its context leaves. -/
theorem finish {l : L} {d : S} {x : R × S} (h : M.Ends l d x) (hd : s.shared = d)
    (hc : s.context i = ⟨.inside op l, regs⟩) :
    ∃ t, Solo M i s t ∧ (t.context i).point = .outside := by
  induction h generalizing s with
  | @now l d d' r h =>
    have hs := inside (M := M) hc
    rw [hd, h] at hs
    have hnext : (s.advanced i op regs (.inr r, d')).context i = ⟨.releasing op r .loadPtr, regs⟩ :=
      s.put_context_self i s.locked _
    obtain ⟨t, ht, hout⟩ := release (M := M) hnext
    exact ⟨t, hs.trans ht, hout⟩
  | @later l l' d d' x h _ ih =>
    have hs := inside (M := M) hc
    rw [hd, h] at hs
    have hnext : (s.advanced i op regs (.inl l', d')).context i = ⟨.inside op l', regs⟩ :=
      s.put_context_self i s.locked _
    obtain ⟨t, ht, hout⟩ := ih rfl hnext
    exact ⟨t, hs.trans ht, hout⟩

end Solo

/-- How many more instructions the lock takes at most when nobody else moves. -/
def LockPc.rank (r : LockRegisters) : LockPc → ℕ
  | .ret => 0
  | .jeOut => if r.zf then 1 else 7
  | .cmpxchg => 2
  | .xorEax => 3
  | .loadPtr => 4
  | .loadVal => 5
  | .jzRetry => if r.zf then 4 else 9
  | .testEax => if r.eax = 0#32 then 5 else 10
  | .movEax => 6
  | .jmpPause => 7
  | .repNop => 8

/-- The lock is free, or taken by the exchange that was just performed. -/
def LockPc.Open (locked : BitVec 32) (r : LockRegisters) (pc : LockPc) : Prop :=
  locked = 0#32 ∨ pc = .ret ∨ pc = .jeOut ∧ r.zf = true

/-- An instruction while the lock is open. -/
theorem spinlockTestAndSet_rank {locked : BitVec 32} {r : LockRegisters} {pc : LockPc}
    (hopen : pc.Open locked r) (heax : pc = .cmpxchg → r.eax = 0#32) (hpc : pc ≠ .ret) :
    ∃ pc', (spinlockTestAndSet locked r pc).2.2 = some pc' ∧
      pc'.Open (spinlockTestAndSet locked r pc).1 (spinlockTestAndSet locked r pc).2.1 ∧
      pc'.rank (spinlockTestAndSet locked r pc).2.1 < pc.rank r ∧
      (pc' = .cmpxchg → (spinlockTestAndSet locked r pc).2.1.eax = 0#32) := by
  cases pc with
  | ret => exact absurd rfl hpc
  | jeOut =>
    by_cases hzf : r.zf <;>
      simp_all [spinlockTestAndSet, LockPc.rank, LockPc.Open]
  | jzRetry =>
    by_cases hzf : r.zf <;>
      simp_all [spinlockTestAndSet, LockPc.rank, LockPc.Open]
  | testEax =>
    by_cases hz : r.eax = 0#32 <;>
      simp_all [spinlockTestAndSet, LockPc.rank, LockPc.Open]
  | _ => simp_all [spinlockTestAndSet, LockPc.rank, LockPc.Open]

/-- A context at an open lock gets in by itself. -/
theorem Solo.acquire {M : Lib.Routine ω L R S} {i : ι} {op : ω} (n : ℕ) :
    ∀ {s : SpinState ι ω L R S} {pc : LockPc} {regs : LockRegisters},
      s.context i = ⟨.acquiring op pc, regs⟩ → pc.Open s.locked regs →
      (pc = .cmpxchg → regs.eax = 0#32) → pc.rank regs ≤ n →
      ∃ t regs', Solo M i s t ∧ t.context i = ⟨.inside op (M.entry op), regs'⟩ ∧
        t.shared = s.shared := by
  induction n with
  | zero =>
    intro s pc regs hc _ _ hn
    have hpc : pc = .ret := by
      cases pc <;> simp [LockPc.rank] at hn ⊢
      all_goals split_ifs at hn
    subst hpc
    exact ⟨_, regs, Solo.acquiring hc, by
      simp [SpinState.put, spinlockTestAndSet, LockContext.locking], rfl⟩
  | succ n ih =>
    intro s pc regs hc hopen heax hn
    by_cases hpc : pc = .ret
    · subst hpc
      exact ⟨_, regs, Solo.acquiring hc, by
        simp [SpinState.put, spinlockTestAndSet, LockContext.locking], rfl⟩
    · obtain ⟨pc', hnext, hopen', hrank, heax'⟩ := spinlockTestAndSet_rank hopen heax hpc
      have hs := Solo.acquiring (M := M) hc
      rw [hnext] at hs
      obtain ⟨t, regs', ht, hin, hshared⟩ := ih (s.put_context_self i _ _) hopen' heax' (by omega)
      exact ⟨t, regs', hs.trans ht, hin, hshared⟩

section Progress

variable {M : Lib.Routine ω L R S} {apply : ω → S → R × S} {s₀ s : SpinState ι ω L R S} {d : S}
  {os : List (SpinEvent ι ω)}

/-- A context at an open lock finishes its call by itself. -/
theorem Solo.call {i : ι} {op : ω} {pc : LockPc} {regs : LockRegisters} {x : R × S}
    (hc : s.context i = ⟨.acquiring op pc, regs⟩) (hopen : pc.Open s.locked regs)
    (hready : (s.context i).Ready) (hends : M.Ends (M.entry op) s.shared x) :
    ∃ t, Solo M i s t ∧ (t.context i).point = .outside := by
  rw [hc] at hready
  obtain ⟨u, regs', hsu, hin, hshared⟩ := Solo.acquire (M := M) _ hc hopen hready.2 le_rfl
  obtain ⟨t, hut, hout⟩ := Solo.finish hends hshared hin
  exact ⟨t, hsu.trans hut, hout⟩

/-- So does the context that has the lock. -/
theorem Solo.holder (hM : M.Implements apply) (hinit : s₀.Initial d)
    (hrun : Lib.Run (spinStep M) Lib.Anything s₀ os s) {h : ι} (hhas : (s.context h).Has M) :
    ∃ t, Solo M h s t ∧ (t.context h).point = .outside := by
  obtain ⟨ps, g, hg, hrel⟩ := exists_rel_of_run hinit hrun
  obtain ⟨t, -, hagrees⟩ := Lib.Guarded.serializable_of_run hM hg
  have hready := hrel.ready h
  rcases hc : s.context h with ⟨point, regs⟩
  have hgrip := hrel.grip_iff h
  rw [hc] at hhas hgrip
  cases point with
  | outside => simp [LockContext.Has, LockContext.grip] at hhas
  | acquiring op pc =>
    have hpc : pc = .ret ∨ pc = .jeOut ∧ regs.zf = true := by
      simpa [LockContext.Has, LockContext.grip] using hhas
    have hin := (hgrip (op, .inl (M.entry op))).mp (by simp [LockContext.grip, hpc])
    simp only [Lib.Guarded.Agrees, hin, ← hrel.shared_eq] at hagrees
    exact Solo.call hc (.inr hpc) hready hagrees
  | inside op l =>
    have hin := (hgrip (op, .inl l)).mp rfl
    simp only [Lib.Guarded.Agrees, hin, ← hrel.shared_eq] at hagrees
    exact Solo.finish hagrees rfl hc
  | releasing op r pc => exact Solo.release hc

/-- After the call that has the lock, if there is one, nobody has it. -/
theorem Solo.clear (hM : M.Implements apply) (hinit : s₀.Initial d)
    (hrun : Lib.Run (spinStep M) Lib.Anything s₀ os s) (i : ι) :
    ∃ h u, Solo M h s u ∧ ∀ j, ¬ (u.context j).Has M := by
  by_cases hnone : ∀ j, ¬ (s.context j).Has M
  · exact ⟨i, s, Solo.refl s, hnone⟩
  · push Not at hnone
    obtain ⟨h, hhas⟩ := hnone
    obtain ⟨u, hsu, hout⟩ := Solo.holder hM hinit hrun hhas
    refine ⟨h, u, hsu, fun j hj => ?_⟩
    by_cases hjh : j = h
    · subst hjh
      simp [LockContext.Has, LockContext.grip, hout] at hj
    · rw [hsu.2 j hjh] at hj
      obtain ⟨-, g, -, hrel⟩ := exists_rel_of_run hinit hrun
      exact hjh (hrel.has_unique hj hhas)

/-- In no reachable state is a context kept from the end of its call: some context, the one that
has the lock, performs its next instructions, then the context its own, and it is outside. -/
theorem spinlock_no_deadlock (hM : M.Implements apply) (hinit : s₀.Initial d)
    (hrun : Lib.Run (spinStep M) Lib.Anything s₀ os s) (i : ι) :
    ∃ h m n t, Lib.Run (spinStep M) Lib.Anything s
      (List.replicate m (.next h) ++ List.replicate n (.next i)) t ∧
        (t.context i).point = .outside := by
  obtain ⟨h, u, ⟨⟨m, hsu⟩, -⟩, hnone⟩ := Solo.clear hM hinit hrun i
  obtain ⟨qs, g, hg, hrel⟩ := exists_rel_of_run hinit (hrun.trans hsu)
  have hfree := hrel.free_iff.mpr (hrel.inside_eq_none hnone)
  have hready := hrel.ready i
  -- the lock is free now
  obtain ⟨t, ⟨⟨n, hut⟩, -⟩, hout⟩ : ∃ t, Solo M i u t ∧ (t.context i).point = .outside := by
    rcases hc : u.context i with ⟨point, regs⟩
    cases point with
    | outside => exact ⟨u, Solo.refl u, by rw [hc]⟩
    | acquiring op pc => exact Solo.call hc (.inl hfree) hready (hM op u.shared)
    | inside op l => exact absurd (by simp [LockContext.Has, LockContext.grip, hc]) (hnone i)
    | releasing op r pc => exact Solo.release hc
  exact ⟨h, m, n, t, hsu.trans hut, hout⟩

/-- The one that waits gets its turn. -/
theorem spinlock_no_deadlock_counter : ∃ s, Lib.Run (spinStep counter) Lib.Anything counterStart
      counterRace s ∧
    ∃ h m n t, Lib.Run (spinStep counter) Lib.Anything s
      (List.replicate m (.next h) ++ List.replicate n (.next true)) t ∧
        (t.context true).point = .outside := by
  have hrun : Lib.Run (spinStep counter) Lib.Anything counterStart counterRace _ := .of_checked rfl
  exact ⟨_, hrun, spinlock_no_deadlock counter_implements counterStart_initial hrun true⟩

end Progress

end DosKernel
