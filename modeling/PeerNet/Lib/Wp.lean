import Mathlib.Logic.Basic
import Mathlib.Order.Defs.Unbundled
import Mathlib.Tactic.Common

/-
  Weakest preconditions for programs with a state and
  faults.

  A program is an `EStateM ε σ α`: it ends normally with a
  value or stops at a fault, and both ends carry the state
  they were reached in. `wp x Q E s` says that the run of
  `x` from `s` meets `Q` at a normal end and `E` at a
  fault. The rules below take a program apart along its
  `do` block, so a proof never unfolds the monad.

  `Respects R x` says that both ends of every run of `x` are
  related to its start. For a preorder it holds of a program
  once it holds of its parts.

  Key definitions include:
    * `Prog.wp`
    * `Prog.Respects`

  Key rules include:
    * `Prog.wp_bind`
    * `Prog.wp_mono`
    * `Prog.wp_eq_ok`
    * `Prog.bind_eq_ok`
    * `Prog.wp_forM`
    * `Prog.wp_forM_done`
    * `Prog.Respects.bind`
    * `Prog.Respects.forM`
-/

------------------------------------------------------------
-- Weakest Preconditions
------------------------------------------------------------

namespace Prog

universe u

variable {ε σ α β : Type u}

/-
  From `s`, a normal end of `x` meets `Q` and a fault of `x`
  meets `E`.
-/
def wp
    (x : EStateM ε σ α)
    (Q : α → σ → Prop)
    (E : ε → σ → Prop)
    (s : σ) : Prop :=
  match x s with
  | .ok a t => Q a t
  | .error e t => E e t

variable {Q : α → σ → Prop} {E : ε → σ → Prop} {s : σ}

@[simp] theorem wp_pure
    (a : α) :
    wp (pure a : EStateM ε σ α) Q E s ↔ Q a s :=
  Iff.rfl

@[simp] theorem wp_throw
    (e : ε) :
    wp (throw e : EStateM ε σ α) Q E s ↔ E e s :=
  Iff.rfl

@[simp] theorem wp_get
    {Q : σ → σ → Prop} :
    wp (get : EStateM ε σ σ) Q E s ↔ Q s s :=
  Iff.rfl

@[simp] theorem wp_modify
    {Q : PUnit → σ → Prop}
    (f : σ → σ) :
    wp (modify f : EStateM ε σ PUnit) Q E s ↔
      Q ⟨⟩ (f s) :=
  Iff.rfl

/- Sequencing runs the second program from the first's end. -/
@[simp] theorem wp_bind
    {Q : β → σ → Prop}
    (x : EStateM ε σ α)
    (f : α → EStateM ε σ β) :
    wp (x >>= f) Q E s ↔
      wp x (fun a t => wp (f a) Q E t) E s := by
  change
    (match EStateM.bind x f s with
      | .ok a t => Q a t
      | .error e t => E e t) ↔ _
  unfold wp EStateM.bind
  cases x s with
  | ok a t => rfl
  | error e t => rfl

@[simp] theorem wp_map
    {Q : β → σ → Prop}
    (f : α → β)
    (x : EStateM ε σ α) :
    wp (f <$> x) Q E s ↔ wp x (fun a t => Q (f a) t) E s := by
  change
    (match EStateM.map f x s with
      | .ok a t => Q a t
      | .error e t => E e t) ↔ _
  unfold wp EStateM.map
  cases x s with
  | ok a t => rfl
  | error e t => rfl

@[simp] theorem wp_discard
    {Q : PUnit → σ → Prop}
    (x : EStateM ε σ α) :
    wp (discard x) Q E s ↔ wp x (fun _ t => Q ⟨⟩ t) E s :=
  wp_map (fun _ => PUnit.unit) x

@[simp] theorem wp_ite
    {c : Prop} [Decidable c]
    (x y : EStateM ε σ α) :
    wp (if c then x else y) Q E s ↔
      (c → wp x Q E s) ∧ (¬ c → wp y Q E s) := by
  by_cases h : c <;> simp [h]

/- Weaker postconditions are met as well. -/
theorem wp_mono
    {x : EStateM ε σ α}
    {Q' : α → σ → Prop}
    {E' : ε → σ → Prop}
    (h : wp x Q E s)
    (hQ : ∀ a t, Q a t → Q' a t)
    (hE : ∀ e t, E e t → E' e t) :
    wp x Q' E' s := by
  unfold wp at h ⊢
  cases hx : x s with
  | ok a t =>
      rw [hx] at h
      exact hQ a t h
  | error e t =>
      rw [hx] at h
      exact hE e t h

/- A run that ends in one way, and at no fault. -/
theorem wp_eq_ok
    {x : EStateM ε σ α}
    {a : α}
    {t : σ} :
    wp x (fun b u => b = a ∧ u = t) (fun _ _ => False) s ↔
      x s = .ok a t := by
  unfold wp
  cases x s with
  | ok b u => simp
  | error e u => simp

/- A sequence ends as its second program does, from there. -/
theorem bind_eq_ok
    {x : EStateM ε σ α}
    {f : α → EStateM ε σ β}
    {b : β}
    {u : σ} :
    (x >>= f) s = .ok b u ↔
      ∃ a t, x s = .ok a t ∧ f a t = .ok b u := by
  change EStateM.bind x f s = .ok b u ↔ _
  unfold EStateM.bind
  cases x s with
  | ok a t => simp
  | error e t => simp

/- A loop over a list keeps what every iteration keeps. -/
theorem wp_forM
    {I : σ → Prop}
    {f : α → EStateM ε σ PUnit}
    (xs : List α)
    (hStep :
      ∀ x ∈ xs, ∀ t, I t →
        wp (f x) (fun _ => I) E t)
    (hStart : I s) :
    wp (xs.forM f) (fun _ => I) E s := by
  induction xs generalizing s with
  | nil => exact hStart
  | cons x xs ih =>
      change
        wp (f x >>= fun _ => xs.forM f)
          (fun _ => I) E s
      rw [wp_bind]
      apply wp_mono (hStep x (by simp) s hStart)
      · intro _ t ht
        exact ih
          (fun y hy => hStep y (by simp [hy])) ht
      · exact fun _ _ h => h

/-
  A loop over a list, where the invariant tells which
  elements are done.
-/
theorem wp_forM_done
    {I : List α → σ → Prop}
    {f : α → EStateM ε σ PUnit}
    (xs : List α)
    (hStep :
      ∀ done, ∀ x ∈ xs, ∀ t, I done t →
        wp (f x) (fun _ => I (done ++ [x])) E t)
    (done : List α)
    (hStart : I done s) :
    wp (xs.forM f) (fun _ => I (done ++ xs)) E s := by
  induction xs generalizing s done with
  | nil =>
      rw [List.append_nil]
      exact hStart
  | cons x xs ih =>
      change
        wp (f x >>= fun _ => xs.forM f)
          (fun _ => I (done ++ x :: xs)) E s
      rw [wp_bind]
      apply wp_mono (hStep done x (by simp) s hStart)
      · intro _ t ht
        have hRest := ih
          (fun done y hy => hStep done y (by simp [hy]))
          (done ++ [x]) ht
        simpa using hRest
      · exact fun _ _ h => h

end Prog

------------------------------------------------------------
-- Programs That Respect a Relation
------------------------------------------------------------

namespace Prog

universe u

variable {ε σ α β : Type u} {R : σ → σ → Prop}

/- Both ends of a run are related to its start. -/
def Respects
    (R : σ → σ → Prop)
    (x : EStateM ε σ α) : Prop :=
  ∀ s, wp x (fun _ t => R s t) (fun _ t => R s t) s

theorem Respects.pure
    [Std.Refl R]
    (a : α) :
    Respects R (pure a : EStateM ε σ α) :=
  fun s => refl_of R s

theorem Respects.throw
    [Std.Refl R]
    (e : ε) :
    Respects R (throw e : EStateM ε σ α) :=
  fun s => refl_of R s

theorem Respects.modify
    {g : σ → σ}
    (hg : ∀ s, R s (g s)) :
    Respects R (modify g : EStateM ε σ PUnit) :=
  hg

theorem Respects.bind
    [IsTrans σ R]
    {x : EStateM ε σ α}
    {f : α → EStateM ε σ β}
    (hx : Respects R x)
    (hf : ∀ a, Respects R (f a)) :
    Respects R (x >>= f) := by
  intro s
  rw [wp_bind]
  apply wp_mono (hx s)
  · intro a t hFirst
    apply wp_mono (hf a t)
    · exact fun _ _ hRest => trans_of R hFirst hRest
    · exact fun _ _ hRest => trans_of R hFirst hRest
  · exact fun _ _ h => h

theorem Respects.get_bind
    {f : σ → EStateM ε σ β}
    (hf : ∀ s, Respects R (f s)) :
    Respects R (get >>= f) :=
  fun s => hf s s

theorem Respects.ite
    {c : Prop} [Decidable c]
    {x y : EStateM ε σ α}
    (hx : Respects R x)
    (hy : Respects R y) :
    Respects R (if c then x else y) := by
  split
  · exact hx
  · exact hy

theorem Respects.forM
    [IsPreorder σ R]
    {f : α → EStateM ε σ PUnit}
    (xs : List α)
    (hf : ∀ x, Respects R (f x)) :
    Respects R (xs.forM f) := by
  induction xs with
  | nil => exact Respects.pure _
  | cons x xs ih => exact (hf x).bind fun _ => ih

/- What is carried along the relation holds at both ends. -/
theorem Respects.wp
    {x : EStateM ε σ α}
    {I : σ → Prop}
    {s : σ}
    (hx : Respects R x)
    (hCarry : ∀ t, R s t → I t) :
    Prog.wp x (fun _ t => I t) (fun _ t => I t) s :=
  wp_mono (hx s) (fun _ t => hCarry t) fun _ t => hCarry t

end Prog
