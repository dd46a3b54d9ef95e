import PeerNet.Lib.Runs

/-
  Forward simulation between guarded systems.

  A concrete system is simulated by an abstract one if every
  allowed concrete step from related states is matched by
  allowed abstract steps, none or many, to a related state.
  Then every concrete run is matched by an abstract run, and
  what holds in all abstract states carries over.

  Key definitions include:
    * `Runs.Simulates`

  Key rules include:
    * `Runs.Simulates.run`
    * `Runs.Simulates.invariant`
-/

------------------------------------------------------------
-- Simulation
------------------------------------------------------------

namespace Runs

variable {σ τ ι κ : Type*}
variable {step : σ → ι → σ} {allow : σ → ι → Prop}
variable {step' : τ → κ → τ} {allow' : τ → κ → Prop}
variable {R : σ → τ → Prop} {s s' : σ} {t : τ}

/- Each step is matched by a run of the other system. -/
def Simulates
    (step : σ → ι → σ)
    (allow : σ → ι → Prop)
    (step' : τ → κ → τ)
    (allow' : τ → κ → Prop)
    (R : σ → τ → Prop) : Prop :=
  ∀ s t i, R s t → allow s i →
    ∃ u, Reaches step' allow' t u ∧ R (step s i) u

/- So a run is matched by a run. -/
theorem Simulates.run
    (h : Simulates step allow step' allow' R)
    (hStart : R s t)
    (hRun : Reaches step allow s s') :
    ∃ t', Reaches step' allow' t t' ∧ R s' t' := by
  induction hRun with
  | refl => exact ⟨t, .refl, hStart⟩
  | step i _ hAllow ih =>
      rcases ih with ⟨u, hBefore, hRelated⟩
      rcases h _ u i hRelated hAllow with
        ⟨t', hAfter, hNext⟩
      exact ⟨t', hBefore.trans hAfter, hNext⟩

/- What related states share holds all the way. -/
theorem Simulates.invariant
    {I : σ → Prop}
    (h : Simulates step allow step' allow' R)
    (hStart : R s t)
    (hShared :
      ∀ u v, Reaches step' allow' t v → R u v → I u)
    (hRun : Reaches step allow s s') :
    I s' := by
  rcases h.run hStart hRun with ⟨t', hAbstract, hRelated⟩
  exact hShared s' t' hAbstract hRelated

end Runs
