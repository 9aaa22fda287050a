import DosKernel.Lib.Runs

/-! Operations that run in small steps under one lock. Any number of contexts call them. An
operation begins when its context gets the lock, and the lock is given up after its last step;
in between, only the context inside touches the shared state. Hence the contexts together do
what the operations do one after the other, in the order in which they end. -/

namespace DosKernel.Lib

variable {ι ω L R S : Type*}

/-- Operations in small steps. A call begins in the local state `entry`; a step leads to the
next local state or ends the operation with a result. -/
structure Routine (ω L R S : Type*) where
  entry : ω → L
  advance : L → S → (L ⊕ R) × S

namespace Routine

variable {M : Routine ω L R S} {l l' : L} {s s' : S} {r : R} {x : R × S}

/-- Run by itself from here, the operation ends with this result and shared state. -/
inductive Ends (M : Routine ω L R S) : L → S → R × S → Prop
  | now {l : L} {s s' : S} {r : R} (h : M.advance l s = (.inr r, s')) : Ends M l s (r, s')
  | later {l l' : L} {s s' : S} {x : R × S} (h : M.advance l s = (.inl l', s'))
      (ht : Ends M l' s' x) : Ends M l s x

theorem Ends.after (h : M.Ends l s x) (hl : M.advance l s = (.inl l', s')) : M.Ends l' s' x := by
  cases h with
  | now h => simp [hl] at h
  | later h ht =>
    rw [hl] at h
    obtain ⟨h1, h2⟩ := Prod.mk.inj h
    rwa [Sum.inl.inj h1, h2]

theorem Ends.result (h : M.Ends l s x) (hr : M.advance l s = (.inr r, s')) : x = (r, s') := by
  cases h with
  | now h =>
    rw [hr] at h
    obtain ⟨h1, h2⟩ := Prod.mk.inj h
    rw [Sum.inr.inj h1, h2]
  | later h ht => simp [hr] at h

/-- Every call, run by itself, does what `apply` says. -/
def Implements (M : Routine ω L R S) (apply : ω → S → R × S) : Prop :=
  ∀ op s, M.Ends (M.entry op) s (apply op s)

end Routine

/-- The calls of `log` performed one after the other lead from `s` to `t`, with the results
that stand in the log. -/
inductive Serial (apply : ω → S → R × S) (s : S) : List (ι × ω × R) → S → Prop
  | nil : Serial apply s [] s
  | concat {log : List (ι × ω × R)} {t : S} (h : Serial apply s log t) (i : ι) (op : ω) :
      Serial apply s (log ++ [(i, op, (apply op t).1)]) (apply op t).2

/-- A shared state behind a lock: who is inside, and how far, or with what result; and the calls
that ended so far. -/
structure Guarded (ι ω L R S : Type*) where
  inside : Option (ι × ω × (L ⊕ R))
  shared : S
  log : List (ι × ω × R)

inductive LockEvent (ι ω : Type*)
  | enter (i : ι) (op : ω)
  | advance
  | leave

/-- What the context inside has done after a step. -/
def Guarded.advanced (g : Guarded ι ω L R S) (i : ι) (op : ω) : (L ⊕ R) × S → Guarded ι ω L R S
  | (.inl l, s) => { g with inside := some (i, op, .inl l), shared := s }
  | (.inr r, s) => { inside := some (i, op, .inr r), shared := s, log := g.log ++ [(i, op, r)] }

/-- One is inside at a time, and leaves with its result. -/
def guardedStep (M : Routine ω L R S) (g : Guarded ι ω L R S) :
    LockEvent ι ω → Option (Guarded ι ω L R S)
  | .enter i op =>
    match g.inside with
    | none => some { g with inside := some (i, op, .inl (M.entry op)) }
    | some _ => none
  | .advance =>
    match g.inside with
    | some (i, op, .inl l) => some (g.advanced i op (M.advance l g.shared))
    | _ => none
  | .leave =>
    match g.inside with
    | some (_, _, .inr _) => some { g with inside := none }
    | _ => none

namespace Guarded

variable {M : Routine ω L R S} {apply : ω → S → R × S} {g g' : Guarded ι ω L R S} {s t : S}

/-- The shared state is that of the serial order, but for the call inside, which leads to what
it does to the serial state. -/
def Agrees (M : Routine ω L R S) (apply : ω → S → R × S) (g : Guarded ι ω L R S) (t : S) : Prop :=
  match g.inside with
  | some (_, op, .inl l) => M.Ends l g.shared (apply op t)
  | _ => g.shared = t

/-- The calls that ended have a serial order, with which the shared state agrees. -/
def Serializable (M : Routine ω L R S) (apply : ω → S → R × S) (s : S)
    (g : Guarded ι ω L R S) : Prop :=
  ∃ t, Serial apply s g.log t ∧ g.Agrees M apply t

theorem Serializable.step (hM : M.Implements apply) (h : g.Serializable M apply s)
    {o : LockEvent ι ω} (hs : guardedStep M g o = some g') : g'.Serializable M apply s := by
  obtain ⟨t, hlog, hg⟩ := h
  cases o with
  | enter i op =>
    simp only [guardedStep] at hs
    split at hs
    next hin =>
      obtain rfl := Option.some.inj hs
      refine ⟨t, hlog, ?_⟩
      simp only [Agrees, hin] at hg ⊢
      rw [hg]
      exact hM op t
    next => cases hs
  | advance =>
    simp only [guardedStep] at hs
    split at hs
    next i op l hin =>
      obtain rfl := Option.some.inj hs
      simp only [Agrees, hin] at hg
      rcases hl : M.advance l g.shared with ⟨l' | r, s'⟩
      · exact ⟨t, hlog, hg.after hl⟩
      · -- the call ends here: it takes its place at the end of the serial order
        have hx := hg.result hl
        refine ⟨s', ?_, rfl⟩
        have hconcat := hlog.concat i op
        rwa [hx] at hconcat
    next => cases hs
  | leave =>
    simp only [guardedStep] at hs
    split at hs
    next i op r hin =>
      obtain rfl := Option.some.inj hs
      refine ⟨t, hlog, ?_⟩
      simpa only [Agrees, hin] using hg
    next => cases hs

theorem serializable_of_run (hM : M.Implements apply) {os : List (LockEvent ι ω)}
    (h : Run (guardedStep M) Anything ⟨none, s, []⟩ os g) : g.Serializable M apply s :=
  h.invariant (fun _ _ _ hi _ hs => hi.step hM hs) ⟨s, .nil, rfl⟩

end Guarded

end DosKernel.Lib
