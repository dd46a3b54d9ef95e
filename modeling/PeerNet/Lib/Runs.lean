import Mathlib.Logic.Basic
import Mathlib.Tactic.Common

/-
  Runs of a deterministic step function under a guard.

  A system steps on events. A guard says which events may
  happen in which states: what callers promise and what a
  statement assumes about a run. `Runs.Reaches` is
  reachability by allowed steps and `Runs.Reaches.invariant`
  is the induction over a run: what holds at the start and
  is kept by one allowed step holds in every reached state.

  Key definitions include:
    * `Runs.Reaches`
    * `Runs.foldSteps`

  Key rules include:
    * `Runs.Reaches.invariant`
    * `Runs.Reaches.mono`
    * `Runs.allAllowed_append`
    * `Runs.reaches_foldSteps`
    * `Runs.reaches_take`
-/

------------------------------------------------------------
-- Guarded Reachability
------------------------------------------------------------

namespace Runs

variable {σ ι : Type*}

/- The states reached from `s` by steps that `allow` permits. -/
inductive Reaches
    (step : σ → ι → σ)
    (allow : σ → ι → Prop)
    (s : σ) : σ → Prop
| refl : Reaches step allow s s
| step {t : σ} (i : ι) :
    Reaches step allow s t →
    allow t i →
    Reaches step allow s (step t i)

variable {step : σ → ι → σ}
variable {allow allow' : σ → ι → Prop}

/-
  A property of the start that every allowed step keeps
  holds in every reached state.
-/
theorem Reaches.invariant
    {I : σ → Prop}
    {s t : σ}
    (hRun : Reaches step allow s t)
    (hStart : I s)
    (hStep :
      ∀ u i, I u → allow u i → I (step u i)) :
    I t := by
  induction hRun with
  | refl => exact hStart
  | step i _ hAllow ih => exact hStep _ i ih hAllow

/- A weaker guard permits every run of a stronger one. -/
theorem Reaches.mono
    {s t : σ}
    (hRun : Reaches step allow s t)
    (hAllow : ∀ u i, allow u i → allow' u i) :
    Reaches step allow' s t := by
  induction hRun with
  | refl => exact .refl
  | step i _ h ih => exact .step i ih (hAllow _ i h)

theorem Reaches.trans
    {s t u : σ}
    (hFirst : Reaches step allow s t)
    (hSecond : Reaches step allow t u) :
    Reaches step allow s u := by
  induction hSecond with
  | refl => exact hFirst
  | step i _ h ih => exact .step i ih h

/- The state after a list of events, oldest first. -/
def foldSteps
    (step : σ → ι → σ)
    (s : σ)
    (events : List ι) : σ :=
  events.foldl step s

/- Each event of the list is allowed where it happens. -/
def AllAllowed
    (step : σ → ι → σ)
    (allow : σ → ι → Prop) :
    σ → List ι → Prop
| _, [] => True
| s, i :: events =>
    allow s i ∧ AllAllowed step allow (step s i) events

/- A guard that is computed is checked along the events. -/
instance decidableAllAllowed
    [∀ s i, Decidable (allow s i)] :
    (s : σ) →
      (events : List ι) →
      Decidable (AllAllowed step allow s events)
| _, [] => .isTrue trivial
| s, i :: events =>
    @instDecidableAnd _ _ _
      (decidableAllAllowed (step s i) events)

theorem foldSteps_append
    (s : σ)
    (before after : List ι) :
    foldSteps step s (before ++ after) =
      foldSteps step (foldSteps step s before) after :=
  List.foldl_append

/- Allowed events are allowed up to any point and from it. -/
theorem allAllowed_append
    {s : σ}
    {before after : List ι} :
    AllAllowed step allow s (before ++ after) ↔
      AllAllowed step allow s before ∧
        AllAllowed step allow (foldSteps step s before)
          after := by
  induction before generalizing s with
  | nil => exact ⟨fun h => ⟨trivial, h⟩, fun h => h.2⟩
  | cons i before ih =>
      rw [List.cons_append, AllAllowed, ih, AllAllowed,
        and_assoc]
      rfl

/- A list of allowed events is a run. -/
theorem reaches_foldSteps
    {s : σ}
    {events : List ι}
    (hAllow : AllAllowed step allow s events) :
    Reaches step allow s (foldSteps step s events) := by
  induction events generalizing s with
  | nil => exact .refl
  | cons i events ih =>
      exact Reaches.trans
        (.step i .refl hAllow.1) (ih hAllow.2)

/- So is the beginning of such a list. -/
theorem reaches_take
    {s : σ}
    {events : List ι}
    (n : Nat)
    (hAllow : AllAllowed step allow s events) :
    Reaches step allow s
      (foldSteps step s (events.take n)) := by
  rw [← List.take_append_drop n events] at hAllow
  exact reaches_foldSteps (allAllowed_append.mp hAllow).1

/- Without a guard every list of events is a run. -/
theorem reaches_free
    (s : σ)
    (events : List ι) :
    Reaches step (fun _ _ => True) s
      (foldSteps step s events) := by
  apply reaches_foldSteps
  induction events generalizing s with
  | nil => trivial
  | cons i events ih => exact ⟨trivial, ih _⟩

end Runs
