import Mathlib.Algebra.Ring.Nat
import Mathlib.Data.List.Infix
import Mathlib.Tactic.Common

/-
  Streams that are absorbed in blocks of one size.

  `feed` takes one item: it is collected, and the item that
  fills the block has the block compressed into the state.
  `absorb` feeds a whole stream and is a fold, so it does not
  matter in which pieces a stream arrives. `chain` absorbs
  from an empty block. Of two streams of whole blocks that
  chain to the same state, one is a suffix of the other, or
  the streams meet: they go on alike behind two different
  inputs that were compressed to the same state.

  Key definitions include:
    * `Blocks.absorb`
    * `Blocks.chain`
    * `Blocks.Meet`

  Key rules include:
    * `Blocks.absorb_append`
    * `Blocks.absorb_short`
    * `Blocks.absorb_full`
    * `Blocks.length_residual`
    * `Blocks.suffix_or_meet`
-/

------------------------------------------------------------
-- Absorbing
------------------------------------------------------------

namespace Blocks

variable {σ α : Type*}

/- One more item behind a state and an unfinished block. -/
def feed
    (size : Nat)
    (compress : σ → List α → σ)
    (s : σ × List α)
    (a : α) : σ × List α :=
  if s.2.length + 1 = size then
    (compress s.1 (s.2 ++ [a]), [])
  else
    (s.1, s.2 ++ [a])

/- A whole stream. -/
def absorb
    (size : Nat)
    (compress : σ → List α → σ)
    (s : σ × List α)
    (data : List α) : σ × List α :=
  data.foldl (feed size compress) s

section

variable {size : Nat} {compress : σ → List α → σ}
variable {s : σ × List α} {data more : List α}

@[simp] theorem absorb_nil :
    absorb size compress s [] = s :=
  rfl

/- A stream goes on where its beginning left off. -/
theorem absorb_append :
    absorb size compress s (data ++ more) =
      absorb size compress (absorb size compress s data)
        more :=
  List.foldl_append

/- Less than what the block lacks is collected. -/
theorem absorb_short
    (hShort : s.2.length + data.length < size) :
    absorb size compress s data = (s.1, s.2 ++ data) := by
  induction data generalizing s with
  | nil => simp
  | cons a data ih =>
      rw [List.length_cons] at hShort
      have hFeed :
          feed size compress s a = (s.1, s.2 ++ [a]) :=
        if_neg (by omega)
      have hRest :=
        ih (s := (s.1, s.2 ++ [a])) (by simp; omega)
      rw [absorb, List.foldl_cons, hFeed]
      simpa [absorb] using hRest

/- Just what the block lacks has it compressed. -/
theorem absorb_full
    (hOpen : s.2.length < size)
    (hFull : s.2.length + data.length = size) :
    absorb size compress s data =
      (compress s.1 (s.2 ++ data), []) := by
  rcases List.eq_nil_or_concat data with rfl | ⟨front, a, rfl⟩
  · simp at hFull
    omega
  · rw [List.concat_eq_append] at hFull ⊢
    rw [List.length_append, List.length_singleton] at hFull
    have hFront : s.2.length + front.length + 1 = size := by
      omega
    have hStart :
        absorb size compress s front = (s.1, s.2 ++ front) :=
      absorb_short (by omega)
    rw [absorb_append, hStart, absorb, List.foldl_cons,
      List.foldl_nil, feed, if_pos (by simpa using hFront),
      List.append_assoc]

/- What is left over is what the blocks leave over. -/
theorem length_residual
    (hOpen : s.2.length < size) :
    (absorb size compress s data).2.length =
      (s.2.length + data.length) % size := by
  induction data generalizing s with
  | nil => simp [Nat.mod_eq_of_lt hOpen]
  | cons a data ih =>
      rw [absorb, List.foldl_cons, List.length_cons]
      by_cases hLast : s.2.length + 1 = size
      · have hFeed :
            feed size compress s a =
              (compress s.1 (s.2 ++ [a]), []) :=
          if_pos hLast
        have hRest :=
          ih (s := (compress s.1 (s.2 ++ [a]), []))
            (by simp; omega)
        rw [hFeed]
        rw [absorb, List.length_nil, Nat.zero_add] at hRest
        rw [hRest,
          show s.2.length + (data.length + 1) =
            size + data.length by omega,
          Nat.add_mod_left]
      · have hFeed :
            feed size compress s a = (s.1, s.2 ++ [a]) :=
          if_neg hLast
        have hRest :=
          ih (s := (s.1, s.2 ++ [a])) (by simp; omega)
        rw [hFeed]
        rw [absorb, List.length_append,
          List.length_singleton] at hRest
        rw [hRest,
          show s.2.length + 1 + data.length =
            s.2.length + (data.length + 1) by omega]

end

end Blocks

------------------------------------------------------------
-- Chains of Whole Blocks
------------------------------------------------------------

namespace Blocks

variable {σ α : Type*}

/- The state a stream leads to from an empty block. -/
def chain
    (size : Nat)
    (compress : σ → List α → σ)
    (h : σ)
    (data : List α) : σ :=
  (absorb size compress (h, []) data).1

/-
  Behind `front` and `front'`, different states and blocks
  are compressed alike.
-/
structure MeetAt
    (size : Nat)
    (compress : σ → List α → σ)
    (h : σ)
    (front block front' block' : List α) : Prop where
  whole : front.length % size = 0
  whole' : front'.length % size = 0
  length : block.length = size
  length' : block'.length = size
  inputs :
    (chain size compress h front, block) ≠
      (chain size compress h front', block')
  outputs :
    compress (chain size compress h front) block =
      compress (chain size compress h front') block'

/- And from there on the streams are the same. -/
def Meet
    (size : Nat)
    (compress : σ → List α → σ)
    (h : σ)
    (data data' : List α) : Prop :=
  ∃ front block front' block' rest,
    data = front ++ block ++ rest ∧
      data' = front' ++ block' ++ rest ∧
        MeetAt size compress h front block front' block'

section

variable {size : Nat} {compress : σ → List α → σ}
variable {h : σ} {data data' front block : List α}

/- Whole blocks leave nothing over. -/
theorem absorb_whole
    (hSize : 0 < size)
    (hWhole : data.length % size = 0) :
    absorb size compress (h, []) data =
      (chain size compress h data, []) := by
  have hLength :
      (absorb size compress (h, []) data).2.length =
        ([].length + data.length) % size :=
    length_residual hSize
  rw [List.length_nil, Nat.zero_add, hWhole] at hLength
  rw [chain]
  exact Prod.ext rfl (List.length_eq_zero_iff.mp hLength)

theorem chain_concat
    (hSize : 0 < size)
    (hWhole : front.length % size = 0)
    (hBlock : block.length = size) :
    chain size compress h (front ++ block) =
      compress (chain size compress h front) block := by
  conv_lhs => unfold chain
  rw [absorb_append, absorb_whole hSize hWhole,
    absorb_full hSize (by simpa using hBlock),
    List.nil_append]

/- A stream goes on from where whole blocks have led. -/
theorem chain_append
    (hSize : 0 < size)
    (hWhole : front.length % size = 0) :
    chain size compress h (front ++ data) =
      chain size compress (chain size compress h front)
        data := by
  conv_lhs => unfold chain
  rw [absorb_append, absorb_whole hSize hWhole]
  rfl

theorem chain_block
    (hSize : 0 < size)
    (hBlock : block.length = size) :
    chain size compress h block = compress h block := by
  have hWhole : ([] : List α).length % size = 0 :=
    Nat.zero_mod size
  exact chain_concat hSize hWhole hBlock

/- The last block of a stream of whole blocks. -/
theorem exists_last
    (hSize : 0 < size)
    (hWhole : data.length % size = 0)
    (hSome : data ≠ []) :
    ∃ front block,
      data = front ++ block ∧
        front.length % size = 0 ∧ block.length = size := by
  have hPos := List.length_pos_of_ne_nil hSome
  have hLe : size ≤ data.length :=
    Nat.le_of_dvd hPos (Nat.dvd_of_mod_eq_zero hWhole)
  refine ⟨data.take (data.length - size),
    data.drop (data.length - size),
    (List.take_append_drop _ _).symm, ?_, ?_⟩
  · rw [List.length_take, Nat.min_eq_left (Nat.sub_le _ _),
      ← Nat.mod_eq_sub_mod hLe, hWhole]
  · rw [List.length_drop]
    omega

/- Streams that meet go on alike. -/
theorem Meet.append
    (hMeet : Meet size compress h data data')
    (more : List α) :
    Meet size compress h (data ++ more) (data' ++ more) := by
  rcases hMeet with
    ⟨front, block, front', block', rest, rfl, rfl, hAt⟩
  exact ⟨front, block, front', block', rest ++ more,
    List.append_assoc _ _ _, List.append_assoc _ _ _, hAt⟩

/-
  The streams are compared from their ends. As long as the
  last blocks and the states before them are equal, the rest
  of the streams chains to equal states.
-/
theorem suffix_or_meet
    (hSize : 0 < size)
    (hWhole : data.length % size = 0)
    (hWhole' : data'.length % size = 0)
    (hSame :
      chain size compress h data =
        chain size compress h data') :
    data <:+ data' ∨ data' <:+ data ∨
      Meet size compress h data data' := by
  induction hLen : data.length using Nat.strong_induction_on
    generalizing data data' with
  | _ n ih =>
      by_cases hNil : data = []
      · exact Or.inl (hNil ▸ List.nil_suffix)
      by_cases hNil' : data' = []
      · exact Or.inr (Or.inl (hNil' ▸ List.nil_suffix))
      rcases exists_last hSize hWhole hNil with
        ⟨front, block, rfl, hFront, hBlock⟩
      rcases exists_last hSize hWhole' hNil' with
        ⟨front', block', rfl, hFront', hBlock'⟩
      rw [chain_concat hSize hFront hBlock,
        chain_concat hSize hFront' hBlock'] at hSame
      by_cases hInputs :
          (chain size compress h front, block) =
            (chain size compress h front', block')
      · rcases Prod.mk.inj hInputs with ⟨hChain, rfl⟩
        have hShorter : front.length < n := by
          rw [← hLen, List.length_append]
          omega
        rcases ih _ hShorter hFront hFront' hChain rfl with
          hSuffix | hSuffix | hMeet
        · exact Or.inl
            (List.suffix_append_self_iff.mpr hSuffix)
        · exact Or.inr (Or.inl
            (List.suffix_append_self_iff.mpr hSuffix))
        · exact Or.inr (Or.inr (hMeet.append block))
      · refine Or.inr (Or.inr
          ⟨front, block, front', block', [], ?_, ?_, ?_⟩)
        · exact (List.append_nil _).symm
        · exact (List.append_nil _).symm
        · exact
            { whole := hFront
              whole' := hFront'
              length := hBlock
              length' := hBlock'
              inputs := hInputs
              outputs := hSame }

end

end Blocks
