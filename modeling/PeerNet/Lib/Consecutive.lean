import Mathlib.Data.List.Induction
import Mathlib.Tactic.Common

/-
  Numbers that are sent in order, some of them again.

  A list of numbers is gapless if no number stands in it
  before all numbers from one below it have. What a gapless
  list holds is an initial segment `1 .. m`, and so is what
  each of its prefixes holds. Appending consecutive numbers
  from anywhere up to `m + 1` keeps it gapless.

  Key definitions include:
    * `Consecutive.Gapless`
    * `Consecutive.UpTo`
    * `Consecutive.block`

  Key rules include:
    * `Consecutive.Gapless.append_block`
    * `Consecutive.Gapless.exists_upTo`
-/

------------------------------------------------------------
-- Gapless Lists
------------------------------------------------------------

namespace Consecutive

/- Where a number stands, all lower ones stood before. -/
def Gapless
    (numbers : List Int) : Prop :=
  ∀ pre x, pre ++ [x] <+: numbers →
    1 ≤ x ∧ ∀ i, 1 ≤ i → i < x → i ∈ pre

/- The list holds exactly the numbers `1 .. m`. -/
def UpTo
    (numbers : List Int)
    (m : Int) : Prop :=
  0 ≤ m ∧ ∀ i, i ∈ numbers ↔ 1 ≤ i ∧ i ≤ m

/- The numbers `k + 1 .. k + n`. -/
def block
    (k : Int)
    (n : Nat) : List Int :=
  (List.range n).map fun j : Nat => k + 1 + j

variable {numbers numbers' : List Int} {x k m : Int}

@[simp] theorem block_zero
    (k : Int) :
    block k 0 = [] :=
  rfl

theorem block_succ
    (k : Int)
    (n : Nat) :
    block k (n + 1) = block k n ++ [k + 1 + n] := by
  simp [block, List.range_succ]

theorem upTo_nil :
    UpTo [] 0 := by
  refine ⟨Int.le_refl _, fun i => ?_⟩
  constructor
  · intro hMem
    cases hMem
  · omega

theorem Gapless.nil :
    Gapless [] := by
  intro pre x hPrefix
  have hNone := List.prefix_nil.mp hPrefix
  simp at hNone

theorem Gapless.of_prefix
    (h : Gapless numbers)
    (hPrefix : numbers' <+: numbers) :
    Gapless numbers' :=
  fun pre x hFirst => h pre x (hFirst.trans hPrefix)

/- One more number, behind all lower ones. -/
theorem Gapless.concat
    (h : Gapless numbers)
    (hLow : 1 ≤ x)
    (hLower : ∀ i, 1 ≤ i → i < x → i ∈ numbers) :
    Gapless (numbers ++ [x]) := by
  intro pre y hPrefix
  rcases List.prefix_concat_iff.mp hPrefix with hAll | hOld
  · have hSplit := List.append_inj' hAll rfl
    rw [hSplit.1, (List.singleton_inj.mp hSplit.2)]
    exact ⟨hLow, hLower⟩
  · exact h pre y hOld

/- Consecutive numbers, behind what is held or among it. -/
theorem Gapless.append_block
    (h : Gapless numbers)
    (hUpTo : UpTo numbers m)
    (hLow : 0 ≤ k)
    (hHigh : k ≤ m)
    (n : Nat) :
    Gapless (numbers ++ block k n) ∧
      UpTo (numbers ++ block k n) (max m (k + n)) := by
  induction n with
  | zero =>
      rw [block_zero, List.append_nil]
      have hMax : max m (k + (0 : Nat)) = m := by omega
      rw [hMax]
      exact ⟨h, hUpTo⟩
  | succ n ih =>
      rcases ih with ⟨hGapless, hNow⟩
      rw [block_succ, ← List.append_assoc]
      constructor
      · apply hGapless.concat (by omega)
        intro i hPos hLess
        rw [hNow.2]
        omega
      · refine ⟨by omega, fun i => ?_⟩
        rw [List.mem_append, List.mem_singleton, hNow.2]
        push_cast
        omega

/- A gapless list holds an initial segment. -/
theorem Gapless.exists_upTo
    (h : Gapless numbers) :
    ∃ m, UpTo numbers m := by
  induction numbers using List.reverseRecOn with
  | nil => exact ⟨0, upTo_nil⟩
  | append_singleton numbers x ih =>
      rcases ih (h.of_prefix (List.prefix_append _ _)) with
        ⟨m, hLow, hUpTo⟩
      rcases h numbers x (List.prefix_refl _) with
        ⟨hPos, hLower⟩
      refine ⟨max m x, by omega, fun i => ?_⟩
      rw [List.mem_append, List.mem_singleton]
      constructor
      · rintro (hOld | rfl)
        · have hRange := (hUpTo i).mp hOld
          omega
        · omega
      · rintro ⟨hOne, hMax⟩
        by_cases hOld : i ≤ m
        · exact .inl ((hUpTo i).mpr ⟨hOne, hOld⟩)
        · by_cases hLast : i = x
          · exact .inr hLast
          · exact .inl (hLower i hOne (by omega))

theorem UpTo.unique
    {m' : Int}
    (h : UpTo numbers m)
    (h' : UpTo numbers m') :
    m = m' := by
  have hLow := h.1
  have hLow' := h'.1
  have hMem := h.2 m
  have hMem' := h.2 m'
  rw [h'.2] at hMem hMem'
  omega

end Consecutive
