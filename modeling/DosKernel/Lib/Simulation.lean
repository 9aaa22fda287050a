import DosKernel.Lib.Runs

/-! Simulations. A relation between the states of two systems that the second one restores,
after every step of the first, by a run of its own. -/

namespace DosKernel.Lib

variable {σ τ ω ω' : Type*} {step : σ → ω → Option σ} {C : σ → ω → Prop}
  {step' : τ → ω' → Option τ} {C' : τ → ω' → Prop} {s t : σ} {a : τ} {os : List ω}

/-- Every permitted step from related states is answered by a run to related states. -/
def Simulates (step : σ → ω → Option σ) (C : σ → ω → Prop) (step' : τ → ω' → Option τ)
    (C' : τ → ω' → Prop) (R : σ → τ → Prop) : Prop :=
  ∀ s a o s', R s a → C s o → step s o = some s' → ∃ ps b, Run step' C' a ps b ∧ R s' b

theorem Simulates.run {R : σ → τ → Prop} (h : Simulates step C step' C' R)
    (hrun : Run step C s os t) (hR : R s a) : ∃ ps b, Run step' C' a ps b ∧ R t b := by
  induction hrun generalizing a with
  | nil s => exact ⟨[], a, .nil a, hR⟩
  | cons hc hs _ ih =>
    obtain ⟨ps, b, hab, hb⟩ := h _ _ _ _ hR hc hs
    obtain ⟨qs, c, hbc, hc⟩ := ih hb
    exact ⟨ps ++ qs, c, hab.trans hbc, hc⟩

/-- A system that can always do the same step runs along with the first one. -/
theorem Run.lockstep {C'' : τ → ω → Prop} {step'' : τ → ω → Option τ} {R : σ → τ → Prop}
    (h : ∀ s a o s', R s a → C s o → step s o = some s' →
      ∃ b, C'' a o ∧ step'' a o = some b ∧ R s' b)
    (hrun : Run step C s os t) (hR : R s a) : ∃ b, Run step'' C'' a os b ∧ R t b := by
  induction hrun generalizing a with
  | nil s => exact ⟨a, .nil a, hR⟩
  | cons hc hs _ ih =>
    obtain ⟨b, hcb, hab, hb⟩ := h _ _ _ _ hR hc hs
    obtain ⟨c, hbc, hc⟩ := ih hb
    exact ⟨c, .cons hcb hab hbc, hc⟩

/-- The rule of invariants, for an invariant that speaks of the operations of the run. -/
theorem Run.invariant_mem {I : σ → Prop} (hrun : Run step C s os t)
    (hstep : ∀ s o s', o ∈ os → I s → C s o → step s o = some s' → I s') (hs : I s) : I t := by
  induction hrun with
  | nil s => exact hs
  | cons hc ho _ ih =>
    apply ih
    · exact fun s o s' hmem => hstep s o s' (List.mem_cons_of_mem _ hmem)
    · exact hstep _ _ _ List.mem_cons_self hs hc ho

/-- A run under a stronger side condition. -/
theorem Run.mono {D : σ → ω → Prop} (hrun : Run step C s os t) (h : ∀ s o, C s o → D s o) :
    Run step D s os t := by
  induction hrun with
  | nil s => exact .nil s
  | cons hc hs _ ih => exact .cons (h _ _ hc) hs ih

end DosKernel.Lib
