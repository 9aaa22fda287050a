import Mathlib.Tactic

/-! Runs of a partial step function. An operation that is not permitted in a
state has no successor there. A run may be restricted to operations that meet a
side condition on the state they start from; the unrestricted runs are those
with the condition `Anything`. -/

namespace DosKernel.Lib

variable {σ ω : Type*}

/-- The side condition that every operation meets. -/
def Anything (_ : σ) (_ : ω) : Prop := True

instance (s : σ) (o : ω) : Decidable (Anything s o) := .isTrue trivial

/-- `Run step C s os t`: performing `os` one after the other leads from `s` to
`t`, and every operation meets `C` in the state it is performed in. -/
inductive Run (step : σ → ω → Option σ) (C : σ → ω → Prop) : σ → List ω → σ → Prop
  | nil (s : σ) : Run step C s [] s
  | cons {s s' t : σ} {o : ω} {os : List ω} (hc : C s o) (hs : step s o = some s')
      (ht : Run step C s' os t) : Run step C s (o :: os) t

namespace Run

variable {step : σ → ω → Option σ} {C : σ → ω → Prop} {s t u : σ} {os ps : List ω}

/-- A property of the first state that every permitted step keeps holds at the
end of every run. -/
theorem invariant {I : σ → Prop}
    (hstep : ∀ s o s', I s → C s o → step s o = some s' → I s')
    (h : Run step C s os t) (hs : I s) : I t := by
  induction h with
  | nil s => exact hs
  | cons hc hs' _ ih => exact ih (hstep _ _ _ hs hc hs')

theorem trans (h : Run step C s os t) (h' : Run step C t ps u) : Run step C s (os ++ ps) u := by
  induction h with
  | nil s => exact h'
  | cons hc hs _ ih => exact .cons hc hs (ih h')

theorem single {o : ω} (hc : C s o) (hs : step s o = some t) : Run step C s [o] t :=
  .cons hc hs (.nil t)

/-- A run that is computed, with the side condition checked in every step. -/
theorem of_checked [∀ s o, Decidable (C s o)]
    (h : os.foldlM (fun s o => if C s o then step s o else none) s = some t) :
    Run step C s os t := by
  induction os generalizing s with
  | nil =>
    obtain rfl := Option.some.inj h
    exact .nil s
  | cons o os ih =>
    rw [List.foldlM_cons] at h
    obtain ⟨s', hs, ht⟩ := Option.bind_eq_some_iff.mp h
    split_ifs at hs with hc
    exact .cons hc hs (ih ht)

end Run

/-- The steps of `step`, with a log of what `emit` says of each of them. -/
def logged {ε : Type*} (step : σ → ω → Option σ) (emit : σ → ω → List ε) (s : σ × List ε) (o : ω) :
    Option (σ × List ε) :=
  (step s.1 o).map fun t => (t, s.2 ++ emit s.1 o)

end DosKernel.Lib
