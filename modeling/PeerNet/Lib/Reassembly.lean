import Mathlib.Algebra.BigOperators.Group.List.Basic
import Mathlib.Algebra.Order.BigOperators.Group.List
import Mathlib.Algebra.Order.Group.Nat
import Mathlib.Algebra.Ring.Nat
import Mathlib.Data.List.Induction
import Mathlib.Data.Nat.Cast.Basic
import Mathlib.Tactic.Common

/-
  Reassembly of numbered parts that arrive in any order.

  A buffer is a list of slots, numbered from zero, filled or
  empty. `put` stores a part in its slot: slots up to it are
  created empty, and a slot that is filled keeps its first
  content. `firstGap` is the length of the filled prefix and
  `volume` the total size of the contents.

  `Fits` relates a buffer to the parts it is to hold in the
  end: a buffer that fits its parts has their total volume
  exactly when every part has arrived.

  Key definitions include:
    * `Reassembly.put`
    * `Reassembly.content`
    * `Reassembly.firstGap`
    * `Reassembly.volume`
    * `Reassembly.Fits`

  Key theorems include:
    * `Reassembly.content_put`
    * `Reassembly.firstGap_le_put`
    * `Reassembly.volume_put`
    * `Reassembly.volume_eq_iff`
    * `Reassembly.content_putAll`
-/

------------------------------------------------------------
-- Slots
------------------------------------------------------------

namespace Reassembly

variable {α : Type*}

/- The content of a slot. -/
def content :
    List (Option α) → Nat → Option α
| [], _ => none
| slot :: _, 0 => slot
| _ :: slots, i + 1 => content slots i

/- Store a part, unless its slot is filled. -/
def put :
    List (Option α) → Nat → α → List (Option α)
| [], 0, a => [some a]
| [], i + 1, a => none :: put [] i a
| none :: slots, 0, a => some a :: slots
| some b :: slots, 0, _ => some b :: slots
| slot :: slots, i + 1, a => slot :: put slots i a

/- The length of the filled prefix. -/
def firstGap :
    List (Option α) → Nat
| some _ :: slots => firstGap slots + 1
| _ => 0

/- The total size of the contents. -/
def volume
    (size : α → Nat)
    (slots : List (Option α)) : Nat :=
  (slots.map fun slot => slot.elim 0 size).sum

@[simp] theorem content_nil
    (i : Nat) :
    content ([] : List (Option α)) i = none := by
  cases i <;> rfl

/- A slot that is filled keeps its content. -/
theorem put_of_content
    {slots : List (Option α)}
    {i : Nat}
    (hFilled : (content slots i).isSome)
    (a : α) :
    put slots i a = slots := by
  induction slots generalizing i with
  | nil => simp at hFilled
  | cons slot slots ih =>
      cases i with
      | zero =>
          cases slot with
          | none => simp [content] at hFilled
          | some b => rfl
      | succ i =>
          have hTail : put slots i a = slots :=
            ih hFilled
          cases slot <;> simp [put, hTail]

/- Storing changes one slot, and only if it was empty. -/
theorem content_put
    (slots : List (Option α))
    (i j : Nat)
    (a : α) :
    content (put slots i a) j =
      if j = i then some ((content slots i).getD a)
      else content slots j := by
  induction slots generalizing i j with
  | nil =>
      induction i generalizing j with
      | zero => cases j <;> simp [put, content]
      | succ i ih =>
          cases j with
          | zero => simp [put, content]
          | succ j => simp [put, content, ih]
  | cons slot slots ih =>
      cases i with
      | zero =>
          cases slot <;> cases j <;> simp [put, content]
      | succ i =>
          cases slot <;> cases j <;> simp [put, content, ih]

theorem content_put_self
    (slots : List (Option α))
    (i : Nat)
    (a : α) :
    (content (put slots i a) i).isSome := by
  simp [content_put]

/- A filled slot stays filled with the same content. -/
theorem content_put_of_content
    {slots : List (Option α)}
    {i : Nat}
    {b : α}
    (hContent : content slots i = some b)
    (j : Nat)
    (a : α) :
    content (put slots j a) i = some b := by
  rw [content_put]
  by_cases hij : i = j
  · subst hij
    simp [hContent]
  · simp [hij, hContent]

/- A slot that was filled by storing holds the stored part. -/
theorem content_put_cases
    {slots : List (Option α)}
    {i j : Nat}
    {a b : α}
    (hContent : content (put slots i a) j = some b) :
    content slots j = some b ∨
      (j = i ∧ b = a ∧ content slots i = none) := by
  rw [content_put] at hContent
  by_cases hji : j = i
  · subst hji
    cases hOld : content slots j with
    | none =>
        right
        simpa [hOld, eq_comm] using hContent
    | some c =>
        left
        simpa [hOld] using hContent
  · left
    simpa [hji] using hContent

end Reassembly

------------------------------------------------------------
-- The Filled Prefix
------------------------------------------------------------

namespace Reassembly

variable {α : Type*}

theorem isSome_of_lt_firstGap
    {slots : List (Option α)}
    {i : Nat}
    (hi : i < firstGap slots) :
    (content slots i).isSome := by
  induction slots generalizing i with
  | nil => simp [firstGap] at hi
  | cons slot slots ih =>
      cases slot with
      | none => simp [firstGap] at hi
      | some b =>
          cases i with
          | zero => rfl
          | succ i =>
              simp only [firstGap] at hi
              exact ih (by omega)

/- The slot behind the filled prefix is empty. -/
theorem content_firstGap
    (slots : List (Option α)) :
    content slots (firstGap slots) = none := by
  induction slots with
  | nil => simp
  | cons slot slots ih =>
      cases slot with
      | none => rfl
      | some b => simpa [firstGap, content] using ih

/- The filled prefix is the longest one. -/
theorem le_firstGap_of_forall
    {slots : List (Option α)}
    {k : Nat}
    (hFilled : ∀ i < k, (content slots i).isSome) :
    k ≤ firstGap slots := by
  by_contra hNot
  have hLt : firstGap slots < k := by omega
  have hSome := hFilled _ hLt
  rw [content_firstGap] at hSome
  simp at hSome

/- Storing a part never shortens the filled prefix. -/
theorem firstGap_le_put
    (slots : List (Option α))
    (i : Nat)
    (a : α) :
    firstGap slots ≤ firstGap (put slots i a) := by
  apply le_firstGap_of_forall
  intro j hj
  rcases Option.isSome_iff_exists.mp
      (isSome_of_lt_firstGap hj) with ⟨b, hb⟩
  simp [content_put_of_content hb]

theorem firstGap_le_length
    (slots : List (Option α)) :
    firstGap slots ≤ slots.length := by
  induction slots with
  | nil => simp [firstGap]
  | cons slot slots ih =>
      cases slot with
      | none => simp [firstGap]
      | some b => simpa [firstGap] using ih

end Reassembly

------------------------------------------------------------
-- Volume
------------------------------------------------------------

namespace Reassembly

variable {α : Type*} (size : α → Nat)

@[simp] theorem volume_nil :
    volume size ([] : List (Option α)) = 0 := rfl

@[simp] theorem volume_cons
    (slot : Option α)
    (slots : List (Option α)) :
    volume size (slot :: slots) =
      slot.elim 0 size + volume size slots := by
  simp [volume]

/- A part that was missing adds its size. -/
theorem volume_put
    {slots : List (Option α)}
    {i : Nat}
    (hEmpty : content slots i = none)
    (a : α) :
    volume size (put slots i a) =
      volume size slots + size a := by
  induction slots generalizing i with
  | nil =>
      induction i with
      | zero => simp [put]
      | succ i ih => simpa [put] using ih
  | cons slot slots ih =>
      cases i with
      | zero =>
          cases slot with
          | none =>
              simp [put]
              omega
          | some b => simp [content] at hEmpty
      | succ i =>
          have hTail := ih hEmpty
          cases slot with
          | none =>
              simp [put, hTail]
          | some b =>
              simp [put, hTail]
              omega

end Reassembly

------------------------------------------------------------
-- Fitting the Parts
------------------------------------------------------------

namespace Reassembly

variable {α : Type*}

/- Every filled slot holds the part of its number. -/
def Fits
    (slots : List (Option α))
    (parts : List α) : Prop :=
  slots.length ≤ parts.length ∧
    ∀ i a, content slots i = some a → parts[i]? = some a

theorem Fits.nil
    (parts : List α) :
    Fits [] parts := by
  constructor
  · simp
  · intro i a h
    simp at h

theorem length_put
    (slots : List (Option α))
    (i : Nat)
    (a : α) :
    (put slots i a).length = max slots.length (i + 1) := by
  induction slots generalizing i with
  | nil =>
      induction i with
      | zero => simp [put]
      | succ i ih => simp [put, ih]
  | cons slot slots ih =>
      cases i with
      | zero => cases slot <;> simp [put]
      | succ i => cases slot <;> simp [put, ih]

/- Storing a part in its own slot keeps the buffer fitting. -/
theorem Fits.put
    {slots : List (Option α)}
    {parts : List α}
    (hFits : Fits slots parts)
    {i : Nat}
    {a : α}
    (hPart : parts[i]? = some a) :
    Fits (put slots i a) parts := by
  constructor
  · rw [length_put]
    have hLt : i < parts.length :=
      (List.getElem?_eq_some_iff.mp hPart).1
    have hLength := hFits.1
    omega
  · intro j b hContent
    rcases content_put_cases hContent with hOld | ⟨rfl, rfl, _⟩
    · exact hFits.2 j b hOld
    · exact hPart

theorem Fits.tail
    {slot : Option α}
    {slots : List (Option α)}
    {part : α}
    {parts : List α}
    (hFits : Fits (slot :: slots) (part :: parts)) :
    Fits slots parts := by
  constructor
  · simpa using hFits.1
  · intro i a hContent
    simpa using hFits.2 (i + 1) a hContent

/- A fitting buffer holds at most the parts. -/
theorem volume_le
    (size : α → Nat)
    {slots : List (Option α)}
    {parts : List α}
    (hFits : Fits slots parts) :
    volume size slots ≤ (parts.map size).sum := by
  induction slots generalizing parts with
  | nil => simp
  | cons slot slots ih =>
      cases parts with
      | nil => simpa using hFits.1
      | cons part parts =>
          have hTail := ih hFits.tail
          cases slot with
          | none =>
              simp
              omega
          | some a =>
              have hPart : part = a := by
                simpa using hFits.2 0 a rfl
              simp [hPart]
              omega

/-
  With parts of positive size, a fitting buffer has the
  volume of all parts exactly when it holds all of them.
-/
theorem volume_eq_iff
    {size : α → Nat}
    {slots : List (Option α)}
    {parts : List α}
    (hFits : Fits slots parts)
    (hSize : ∀ part ∈ parts, 0 < size part) :
    volume size slots = (parts.map size).sum ↔
      slots = parts.map some := by
  induction slots generalizing parts with
  | nil =>
      cases parts with
      | nil => simp
      | cons part parts =>
          have hPos := hSize part (by simp)
          simp
          omega
  | cons slot slots ih =>
      cases parts with
      | nil => simpa using hFits.1
      | cons part parts =>
          have hTail := ih hFits.tail
            (fun p hp => hSize p (by simp [hp]))
          have hLe := volume_le size hFits.tail
          have hPos := hSize part (by simp)
          cases slot with
          | none =>
              simp
              omega
          | some a =>
              have hPart : part = a := by
                simpa using hFits.2 0 a rfl
              subst hPart
              simp [hTail]

/- A fitting buffer without gaps holds all parts. -/
theorem eq_map_some_of_firstGap
    {slots : List (Option α)}
    {parts : List α}
    (hFits : Fits slots parts)
    (hAll : parts.length ≤ firstGap slots) :
    slots = parts.map some := by
  induction slots generalizing parts with
  | nil =>
      have hNone : parts = [] := by
        simpa [firstGap] using hAll
      simp [hNone]
  | cons slot slots ih =>
      cases parts with
      | nil => simpa using hFits.1
      | cons part parts =>
          cases slot with
          | none => simp [firstGap] at hAll
          | some a =>
              have hPart : part = a := by
                simpa using hFits.2 0 a rfl
              have hTail :=
                ih hFits.tail (by simpa [firstGap] using hAll)
              rw [hPart, hTail, List.map_cons]

/- A buffer has at most as many parts as slots. -/
theorem count_le_length
    (slots : List (Option α)) :
    volume (fun _ => 1) slots ≤ slots.length := by
  induction slots with
  | nil => simp
  | cons slot slots ih =>
      cases slot with
      | none =>
          simp
          omega
      | some a =>
          simp
          omega

/- It has as many exactly when no slot is empty. -/
theorem count_eq_length_iff
    (slots : List (Option α)) :
    volume (fun _ => 1) slots = slots.length ↔
      ∀ slot ∈ slots, slot.isSome := by
  induction slots with
  | nil => simp
  | cons slot slots ih =>
      have hLe := count_le_length slots
      cases slot with
      | none =>
          simp
          omega
      | some a =>
          rw [List.forall_mem_cons, ← ih]
          simp
          omega

/- A complete buffer has no gap. -/
theorem firstGap_map_some
    (parts : List α) :
    firstGap (parts.map some) = parts.length := by
  induction parts with
  | nil => rfl
  | cons part parts ih => simp [firstGap, ih]

end Reassembly

------------------------------------------------------------
-- Cutting into Parts
------------------------------------------------------------

namespace Reassembly

variable {α : Type*}

/- The first `count` parts of a list, each of one size. -/
def cut
    (size : Nat) :
    Nat → List α → List (List α)
| 0, _ => []
| count + 1, list =>
    list.take size :: cut size count (list.drop size)

@[simp] theorem length_cut
    (size count : Nat)
    (list : List α) :
    (cut size count list).length = count := by
  induction count generalizing list with
  | zero => rfl
  | succ count ih => simp [cut, ih]

/- The parts make up the list again. -/
theorem flatten_cut
    (size count : Nat)
    (list : List α) :
    (cut size count list).flatten =
      list.take (count * size) := by
  induction count generalizing list with
  | zero => simp [cut]
  | succ count ih =>
      have hSplit :
          (count + 1) * size = size + count * size := by
        rw [Nat.succ_mul, Nat.add_comm]
      rw [cut, List.flatten_cons, ih, hSplit,
        List.take_add]

/- No part is larger than the size. -/
theorem length_le_of_mem_cut
    {size count : Nat}
    {list part : List α}
    (hPart : part ∈ cut size count list) :
    part.length ≤ size := by
  induction count generalizing list with
  | zero => simp [cut] at hPart
  | succ count ih =>
      rcases List.mem_cons.mp hPart with hHead | hTail
      · rw [hHead, List.length_take]
        exact Nat.min_le_left _ _
      · exact ih hTail

/- No part is empty, if the last one starts in the list. -/
theorem length_pos_of_mem_cut
    {size count : Nat}
    {list part : List α}
    (hSize : 0 < size)
    (hLast : (count - 1) * size < list.length)
    (hPart : part ∈ cut size count list) :
    0 < part.length := by
  induction count generalizing list with
  | zero => simp [cut] at hPart
  | succ count ih =>
      rcases List.mem_cons.mp hPart with hHead | hTail
      · rw [hHead, List.length_take]
        omega
      · cases count with
        | zero => simp [cut] at hTail
        | succ count =>
            apply ih _ hTail
            have hMul :
                (count + 1) * size = count * size + size :=
              Nat.succ_mul count size
            rw [List.length_drop]
            simp only [Nat.add_sub_cancel] at hLast ⊢
            omega

/- The parts are as long together as the list. -/
theorem sum_length_cut
    {size count : Nat}
    {list : List α}
    (hAll : list.length ≤ count * size) :
    ((cut size count list).map List.length).sum =
      list.length := by
  rw [← List.length_flatten, flatten_cut,
    List.take_of_length_le hAll]

end Reassembly

------------------------------------------------------------
-- Full Parts
------------------------------------------------------------

namespace Reassembly

variable {α : Type*} {size : Nat} {xs ys : List (List α)}

/- Parts that are full together are full each. -/
theorem length_eq_of_flatten
    (hLe : ∀ x ∈ xs, x.length ≤ size)
    (hFull : xs.flatten.length = xs.length * size) :
    ∀ x ∈ xs, x.length = size := by
  induction xs with
  | nil => exact fun x hx => absurd hx List.not_mem_nil
  | cons first rest ih =>
      have hFirst := hLe first List.mem_cons_self
      have hRest : ∀ x ∈ rest, x.length ≤ size :=
        fun x hx => hLe x (List.mem_cons_of_mem _ hx)
      have hSum :
          rest.flatten.length ≤ rest.length * size := by
        have hBound :=
          List.sum_le_card_nsmul (rest.map List.length) size
            (by simpa using hRest)
        rw [List.length_flatten]
        simpa using hBound
      rw [List.flatten_cons, List.length_append,
        List.length_cons, Nat.succ_mul] at hFull
      intro x hx
      rcases List.mem_cons.mp hx with rfl | hx
      · omega
      · exact ih hRest (by omega) x hx

/- Full parts are read off the list they make up. -/
theorem eq_of_flatten_eq
    (hCount : xs.length = ys.length)
    (hLe : ∀ x ∈ xs, x.length ≤ size)
    (hFull : ∀ y ∈ ys, y.length = size)
    (hFlatten : xs.flatten = ys.flatten) :
    xs = ys := by
  have hYs :
      ys.map List.length =
        List.replicate ys.length size := by
    rw [List.eq_replicate_iff]
    simpa using hFull
  have hLength : xs.flatten.length = xs.length * size := by
    rw [hFlatten, List.length_flatten, hYs, hCount]
    simp
  have hXs :
      xs.map List.length =
        List.replicate xs.length size := by
    rw [List.eq_replicate_iff]
    simpa using length_eq_of_flatten hLe hLength
  rw [List.eq_iff_flatten_eq]
  exact ⟨hFlatten, by rw [hXs, hYs, hCount]⟩

end Reassembly

------------------------------------------------------------
-- Parts in Order of Arrival
------------------------------------------------------------

namespace Reassembly

variable {α : Type*}

/- The buffer after numbered parts, the earliest first. -/
def putAll
    (slots : List (Option α))
    (arrivals : List (Nat × α)) : List (Option α) :=
  arrivals.foldl (fun slots a => put slots a.1 a.2) slots

/- The earliest part with a number. -/
def firstPart
    (arrivals : List (Nat × α))
    (i : Nat) : Option α :=
  (arrivals.find? fun a => a.1 = i).map Prod.snd

/- A slot keeps its content, or takes the first arrival. -/
theorem content_putAll
    (slots : List (Option α))
    (arrivals : List (Nat × α))
    (i : Nat) :
    content (putAll slots arrivals) i =
      (content slots i).or (firstPart arrivals i) := by
  induction arrivals generalizing slots with
  | nil => simp [putAll, firstPart]
  | cons a arrivals ih =>
      have hRest := ih (put slots a.1 a.2)
      rw [content_put] at hRest
      by_cases hi : a.1 = i
      · subst hi
        rw [if_pos rfl, Option.some_or] at hRest
        have hFirst :
            firstPart (a :: arrivals) a.1 = some a.2 := by
          simp [firstPart]
        rw [hFirst]
        cases hContent : content slots a.1 with
        | none =>
            rw [hContent] at hRest
            exact hRest
        | some b =>
            rw [hContent] at hRest
            exact hRest
      · have hSkip :
            firstPart (a :: arrivals) i =
              firstPart arrivals i := by
          simp [firstPart, hi]
        rw [if_neg (Ne.symm hi)] at hRest
        rw [hSkip]
        exact hRest

/- The slots reach up to the largest number. -/
theorem lt_length_putAll
    (slots : List (Option α))
    {arrivals : List (Nat × α)}
    {a : Nat × α}
    (hMem : a ∈ arrivals) :
    a.1 < (putAll slots arrivals).length := by
  induction arrivals using List.reverseRecOn with
  | nil => cases hMem
  | append_singleton arrivals b ih =>
      have hLast :
          putAll slots (arrivals ++ [b]) =
            put (putAll slots arrivals) b.1 b.2 := by
        simp [putAll]
      rw [hLast, length_put]
      rcases List.mem_append.mp hMem with hOld | hNew
      · exact lt_max_of_lt_left (ih hOld)
      · rw [List.mem_singleton.mp hNew]
        exact lt_max_of_lt_right (Nat.lt_succ_self _)

/- And not further. -/
theorem length_putAll_cases
    (slots : List (Option α))
    (arrivals : List (Nat × α)) :
    (putAll slots arrivals).length = slots.length ∨
      ∃ a ∈ arrivals,
        (putAll slots arrivals).length = a.1 + 1 := by
  induction arrivals generalizing slots with
  | nil => exact .inl rfl
  | cons a arrivals ih =>
      have hFirst :
          putAll slots (a :: arrivals) =
            putAll (put slots a.1 a.2) arrivals :=
        rfl
      rw [hFirst]
      rcases ih (put slots a.1 a.2) with hSame | hLater
      · rw [length_put] at hSame
        rw [hSame]
        rcases max_choice slots.length (a.1 + 1) with
          hOld | hNew
        · exact .inl hOld
        · exact .inr ⟨a, List.mem_cons_self, hNew⟩
      · rcases hLater with ⟨b, hb, hIs⟩
        exact .inr ⟨b, List.mem_cons_of_mem a hb, hIs⟩

/- The volume, slot by slot. -/
theorem volume_eq_sum
    (size : α → Nat)
    (slots : List (Option α)) :
    volume size slots =
      ((List.range slots.length).map fun i =>
        (content slots i).elim 0 size).sum := by
  induction slots with
  | nil => rfl
  | cons slot slots ih =>
      rw [volume_cons, ih, List.length_cons,
        List.range_succ_eq_map, List.map_cons, List.sum_cons,
        List.map_map]
      rfl

end Reassembly
