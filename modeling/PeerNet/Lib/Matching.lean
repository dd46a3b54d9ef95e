import Mathlib.Logic.Function.Basic

/-
  A partial matching that is stored at both ends.

  Two objects are matched when each points to the other.
  `Matched f g` says that the pointers `f` of one side and
  `g` of the other tell of the same pairs. Pairs are made of
  free objects and are taken apart as a whole.

  Key definitions include:
    * `Matching.Matched`

  Key theorems include:
    * `Matching.Matched.assign`
    * `Matching.Matched.release`
    * `Matching.Matched.unique`
-/

------------------------------------------------------------
-- Matched Pointers
------------------------------------------------------------

namespace Matching

variable {α β : Type*}

/- Both sides tell of the same pairs. -/
def Matched
    (f : α → Option β)
    (g : β → Option α) : Prop :=
  ∀ a b, f a = some b ↔ g b = some a

/- Nothing is matched. -/
theorem Matched.empty :
    Matched
      (fun _ : α => (none : Option β))
      (fun _ => none) := by
  intro a b
  simp

variable {f : α → Option β} {g : β → Option α}

/- One object has one partner. -/
theorem Matched.unique
    (h : Matched f g)
    {a a' : α}
    {b : β}
    (ha : f a = some b)
    (ha' : f a' = some b) :
    a = a' := by
  have hb := (h a b).mp ha
  have hb' := (h a' b).mp ha'
  exact Option.some.inj (hb.symm.trans hb')

variable [DecidableEq α] [DecidableEq β]

/- Two free objects are matched. -/
theorem Matched.assign
    (h : Matched f g)
    {a : α}
    {b : β}
    (ha : f a = none)
    (hb : g b = none) :
    Matched (Function.update f a (some b))
      (Function.update g b (some a)) := by
  intro x y
  have hxy := h x y
  by_cases hx : x = a
  · subst hx
    by_cases hy : y = b
    · subst hy
      simp
    · rw [ha] at hxy
      simp only [Function.update_self,
        Function.update_of_ne hy, Option.some.injEq]
      rw [← hxy]
      simp [Ne.symm hy]
  · by_cases hy : y = b
    · subst hy
      rw [hb] at hxy
      simp only [Function.update_self,
        Function.update_of_ne hx, Option.some.injEq]
      rw [hxy]
      simp [Ne.symm hx]
    · simpa [Function.update_of_ne hx,
        Function.update_of_ne hy] using hxy

/- A pair is taken apart. -/
theorem Matched.release
    (h : Matched f g)
    {a : α}
    {b : β}
    (hab : f a = some b) :
    Matched (Function.update f a none)
      (Function.update g b none) := by
  intro x y
  have hxy := h x y
  have hba := (h a b).mp hab
  by_cases hx : x = a
  · subst hx
    by_cases hy : y = b
    · subst hy
      simp
    · simp only [Function.update_self,
        Function.update_of_ne hy]
      rw [← hxy, hab]
      simp [Ne.symm hy]
  · by_cases hy : y = b
    · subst hy
      simp only [Function.update_self,
        Function.update_of_ne hx]
      rw [hxy, hba]
      simp [Ne.symm hx]
    · simpa [Function.update_of_ne hx,
        Function.update_of_ne hy] using hxy

end Matching
