import PeerNet.Lib.Wp

/-
  Programs that commute with a change of their state.

  A program commutes with `t` if it takes the same way from
  `t s` as from `s`, with the same result, and ends in the
  changed end state. A part of the state that `t` changes and
  the program hands on unread is framed this way.

  Key definitions include:
    * `Prog.Commutes`

  Key rules include:
    * `Prog.Commutes.bind`
    * `Prog.Commutes.get_bind`
    * `Prog.Commutes.forM`
-/

------------------------------------------------------------
-- Commuting Programs
------------------------------------------------------------

namespace Prog

universe u

variable {ε σ α β : Type u}

/- The end of a run, its state changed. -/
def mapEnd
    (t : σ → σ) :
    EStateM.Result ε σ α → EStateM.Result ε σ α
| .ok a s => .ok a (t s)
| .error e s => .error e (t s)

/- The program does the same on the changed state. -/
def Commutes
    (t : σ → σ)
    (x : EStateM ε σ α) : Prop :=
  ∀ s, x (t s) = mapEnd t (x s)

variable {t : σ → σ}

theorem Commutes.pure
    (a : α) :
    Commutes t (pure a : EStateM ε σ α) :=
  fun _ => rfl

theorem Commutes.throw
    (e : ε) :
    Commutes t (throw e : EStateM ε σ α) :=
  fun _ => rfl

theorem Commutes.modify
    {g : σ → σ}
    (hSwap : ∀ s, g (t s) = t (g s)) :
    Commutes t (modify g : EStateM ε σ PUnit) := by
  intro s
  change EStateM.Result.ok PUnit.unit (g (t s)) =
    EStateM.Result.ok PUnit.unit (t (g s))
  rw [hSwap s]

theorem Commutes.bind
    {x : EStateM ε σ α}
    {f : α → EStateM ε σ β}
    (hx : Commutes t x)
    (hf : ∀ a, Commutes t (f a)) :
    Commutes t (x >>= f) := by
  intro s
  change EStateM.bind x f (t s) = mapEnd t (EStateM.bind x f s)
  unfold EStateM.bind
  rw [hx s]
  cases x s with
  | ok a u => exact hf a u
  | error e u => rfl

/- What is read of the state is not what `t` changes. -/
theorem Commutes.get_bind
    {f : σ → EStateM ε σ β}
    (hSame : ∀ s, f (t s) = f s)
    (hf : ∀ s, Commutes t (f s)) :
    Commutes t (get >>= f) := by
  intro s
  change f (t s) (t s) = mapEnd t (f s s)
  rw [hSame s]
  exact hf s s

theorem Commutes.map
    {x : EStateM ε σ α}
    (f : α → β)
    (hx : Commutes t x) :
    Commutes t (f <$> x) := by
  intro s
  change EStateM.map f x (t s) = mapEnd t (EStateM.map f x s)
  unfold EStateM.map
  rw [hx s]
  cases x s with
  | ok a u => rfl
  | error e u => rfl

theorem Commutes.discard
    {x : EStateM ε σ α}
    (hx : Commutes t x) :
    Commutes t (discard x) :=
  hx.map (fun _ => PUnit.unit)

theorem Commutes.ite
    {c : Prop} [Decidable c]
    {x y : EStateM ε σ α}
    (hx : Commutes t x)
    (hy : Commutes t y) :
    Commutes t (if c then x else y) := by
  split
  · exact hx
  · exact hy

theorem Commutes.forM
    {f : α → EStateM ε σ PUnit}
    (xs : List α)
    (hf : ∀ x, Commutes t (f x)) :
    Commutes t (xs.forM f) := by
  induction xs with
  | nil => exact Commutes.pure _
  | cons x xs ih => exact (hf x).bind fun _ => ih

end Prog
