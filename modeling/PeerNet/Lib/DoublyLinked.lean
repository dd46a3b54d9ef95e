import Mathlib.Data.List.Nodup
import Mathlib.Logic.Function.Basic
import Mathlib.Tactic.Common

/-
  Doubly linked lists in a heap of cells.

  A cell holds an item and two links. `Segment m prev xs stop`
  says that the cells of `xs` hang together in the heap `m`:
  each leads to the next one and back to the one before, the
  first back to `prev` and the last on to `stop`. A segment
  splits at any seam and reads nothing but its own cells, so
  an edit at a seam is a change of `stop` on its left and of
  `prev` on its right.

  A `Chain` is such a heap with a head. `leadFrom` and
  `leadBack` write the two pointers at a seam, and
  `Chain.Holds` says what list a chain is. The rules for
  pushing a cell and for taking one out are for any list and
  any position in it.

  Key definitions include:
    * `DoublyLinked.Segment`
    * `DoublyLinked.Chain`
    * `DoublyLinked.Chain.Holds`
    * `DoublyLinked.Traversal`
    * `DoublyLinked.seek`

  Key rules include:
    * `DoublyLinked.segment_append`
    * `DoublyLinked.Chain.Holds.push`
    * `DoublyLinked.Chain.Holds.unlink`
    * `DoublyLinked.Chain.Holds.seek`
-/

------------------------------------------------------------
-- Cells and Segments
------------------------------------------------------------

namespace DoublyLinked

variable {ρ α : Type*}

/- A node of a list: its item and its two links. -/
structure Cell (ρ α : Type*) where
  item : α
  prev : Option ρ
  next : Option ρ

/- The cells that are allocated. -/
abbrev Mem (ρ α : Type*) := ρ → Option (Cell ρ α)

/- Where a segment starts: at its first cell, or past it. -/
def first :
    List (ρ × α) → Option ρ → Option ρ
| [], stop => stop
| x :: _, _ => some x.1

/- The last cell of a segment that follows `prev`. -/
def last
    (prev : Option ρ) :
    List (ρ × α) → Option ρ
| [] => prev
| x :: xs => last (some x.1) xs

/-
  The cells of `xs` are linked both ways, from `prev` on the
  left to `stop` on the right.
-/
def Segment
    (m : Mem ρ α) :
    Option ρ → List (ρ × α) → Option ρ → Prop
| _, [], _ => True
| prev, x :: xs, stop =>
    m x.1 = some ⟨x.2, prev, first xs stop⟩ ∧
      Segment m (some x.1) xs stop

/- The references of a list. -/
abbrev refs
    (xs : List (ρ × α)) : List ρ :=
  xs.map Prod.fst

@[simp] theorem first_append
    (xs ys : List (ρ × α))
    (stop : Option ρ) :
    first (xs ++ ys) stop = first xs (first ys stop) := by
  cases xs <;> rfl

@[simp] theorem last_append
    (prev : Option ρ)
    (xs ys : List (ρ × α)) :
    last prev (xs ++ ys) = last (last prev xs) ys := by
  induction xs generalizing prev with
  | nil => rfl
  | cons x xs ih => exact ih (some x.1)

/- A segment splits at any seam. -/
theorem segment_append
    {m : Mem ρ α}
    {prev stop : Option ρ}
    {xs ys : List (ρ × α)} :
    Segment m prev (xs ++ ys) stop ↔
      Segment m prev xs (first ys stop) ∧
        Segment m (last prev xs) ys stop := by
  induction xs generalizing prev with
  | nil => simp [Segment, last]
  | cons x xs ih =>
      simp only [List.cons_append, Segment, first_append, ih,
        last, and_assoc]

/- A segment reads nothing but its own cells. -/
theorem Segment.congr
    {m m' : Mem ρ α}
    {prev stop : Option ρ}
    {xs : List (ρ × α)}
    (h : Segment m prev xs stop)
    (hSame : ∀ r ∈ refs xs, m' r = m r) :
    Segment m' prev xs stop := by
  induction xs generalizing prev with
  | nil => trivial
  | cons x xs ih =>
      refine ⟨?_, ih h.2 fun r hr => hSame r ?_⟩
      · rw [hSame x.1 List.mem_cons_self]
        exact h.1
      · exact List.mem_cons_of_mem _ hr

/- Every cell of a segment is allocated. -/
theorem Segment.allocated
    {m : Mem ρ α}
    {prev stop : Option ρ}
    {xs : List (ρ × α)}
    {x : ρ × α}
    (h : Segment m prev xs stop)
    (hx : x ∈ xs) :
    ∃ p q, m x.1 = some ⟨x.2, p, q⟩ := by
  induction xs generalizing prev with
  | nil => cases hx
  | cons y xs ih =>
      rcases List.mem_cons.mp hx with rfl | hx
      · exact ⟨_, _, h.1⟩
      · exact ih h.2 hx

end DoublyLinked

------------------------------------------------------------
-- Chains
------------------------------------------------------------

namespace DoublyLinked

variable {ρ α : Type*}

/- A heap of cells and the head of the list in it. -/
structure Chain (ρ α : Type*) where
  head : Option ρ
  mem : Mem ρ α

namespace Chain

/-
  The chain is the list `xs`: linked from its head to the
  end, no cell twice and no other cell allocated.
-/
structure Holds
    (c : Chain ρ α)
    (xs : List (ρ × α)) : Prop where
  head : c.head = first xs none
  linked : Segment c.mem none xs none
  nodup : (refs xs).Nodup
  full : ∀ r, c.mem r ≠ none → r ∈ refs xs

variable [DecidableEq ρ]

/- Write a cell, allocated or not. -/
def put
    (r : ρ)
    (cell : Cell ρ α)
    (c : Chain ρ α) : Chain ρ α :=
  { c with mem := Function.update c.mem r (some cell) }

def free
    (r : ρ)
    (c : Chain ρ α) : Chain ρ α :=
  { c with mem := Function.update c.mem r none }

/- Change an allocated cell; `none` where there is none. -/
def edit
    (r : ρ)
    (f : Cell ρ α → Cell ρ α)
    (c : Chain ρ α) : Option (Chain ρ α) :=
  (c.mem r).map fun cell => c.put r (f cell)

/-
  Let the pointer that leads on from `before`, the head if
  there is no such cell, point to `next`.
-/
def leadFrom
    (before next : Option ρ)
    (c : Chain ρ α) : Option (Chain ρ α) :=
  match before with
  | none => some { c with head := next }
  | some r => c.edit r fun cell => { cell with next := next }

/- Let the cell `after`, if there is one, point back to `prev`. -/
def leadBack
    (after prev : Option ρ)
    (c : Chain ρ α) : Option (Chain ρ α) :=
  match after with
  | none => some c
  | some r => c.edit r fun cell => { cell with prev := prev }

@[simp] theorem put_head
    (r : ρ)
    (cell : Cell ρ α)
    (c : Chain ρ α) :
    (c.put r cell).head = c.head := rfl

@[simp] theorem put_mem
    (r : ρ)
    (cell : Cell ρ α)
    (c : Chain ρ α) :
    (c.put r cell).mem r = some cell :=
  Function.update_self r _ c.mem

theorem put_mem_of_ne
    {q r : ρ}
    (cell : Cell ρ α)
    (c : Chain ρ α)
    (h : q ≠ r) :
    (c.put r cell).mem q = c.mem q :=
  Function.update_of_ne h _ _

/- An edit writes the cell back. -/
theorem edit_eq
    {r : ρ}
    {cell : Cell ρ α}
    {c : Chain ρ α}
    (f : Cell ρ α → Cell ρ α)
    (h : c.mem r = some cell) :
    c.edit r f = some (c.put r (f cell)) := by
  rw [edit, h, Option.map_some]

end Chain

end DoublyLinked

------------------------------------------------------------
-- Editing a Seam
------------------------------------------------------------

namespace DoublyLinked

namespace Chain

variable {ρ α : Type*} {c d : Chain ρ α}
variable {xs ys : List (ρ × α)} {stop prev : Option ρ}

/-
  The two parts of a list at a seam: the left one leads on
  to `stop`, the right one back to `prev`.
-/
structure Parts
    (c : Chain ρ α)
    (xs : List (ρ × α))
    (stop prev : Option ρ)
    (ys : List (ρ × α)) : Prop where
  head : c.head = first xs stop
  left : Segment c.mem none xs stop
  right : Segment c.mem prev ys none
  apart : ∀ r ∈ refs xs, r ∉ refs ys
  nodupLeft : (refs xs).Nodup
  nodupRight : (refs ys).Nodup

theorem Holds.parts
    (h : c.Holds (xs ++ ys)) :
    c.Parts xs (first ys none) (last none xs) ys := by
  have hParts := segment_append.mp h.linked
  have hNodup := h.nodup
  rw [refs, List.map_append, List.nodup_append'] at hNodup
  refine ⟨?_, hParts.1, hParts.2, ?_, hNodup.1, hNodup.2.1⟩
  · rw [h.head, first_append]
  · exact fun r hx hy => hNodup.2.2 hx hy

/- The two parts are one list when each leads to the other. -/
theorem Parts.holds
    (h : c.Parts xs (first ys none) (last none xs) ys)
    (hFull : ∀ r, c.mem r ≠ none → r ∈ refs (xs ++ ys)) :
    c.Holds (xs ++ ys) := by
  refine ⟨?_, segment_append.mpr ⟨h.left, h.right⟩, ?_, hFull⟩
  · rw [first_append]
    exact h.head
  · rw [refs, List.map_append, List.nodup_append']
    exact ⟨h.nodupLeft, h.nodupRight,
      fun r hx hy => h.apart r hx hy⟩

variable [DecidableEq ρ]

/- Cells outside `rs` are as before, and none is new or freed. -/
structure Frame
    (c d : Chain ρ α)
    (rs : List ρ) : Prop where
  same : ∀ r, r ∉ rs → d.mem r = c.mem r
  allocated : ∀ r, d.mem r = none ↔ c.mem r = none

/- Writing an allocated cell leaves the others. -/
theorem frame_put
    {r : ρ}
    {rs : List ρ}
    (new : Cell ρ α)
    (hCell : c.mem r ≠ none)
    (hr : r ∈ rs) :
    Frame c (c.put r new) rs := by
  refine ⟨?_, ?_⟩
  · intro q hq
    exact put_mem_of_ne _ _ fun h => hq (h ▸ hr)
  · intro q
    by_cases hq : q = r
    · simp [hq, hCell]
    · rw [put_mem_of_ne _ _ hq]

/- A segment without the written cell is as before. -/
theorem segment_put
    {r : ρ}
    (new : Cell ρ α)
    (h : Segment c.mem prev xs stop)
    (hr : r ∉ refs xs) :
    Segment (c.put r new).mem prev xs stop :=
  h.congr fun _ hq =>
    put_mem_of_ne _ _ fun hEq => hr (hEq ▸ hq)

/- Writing the pointer that leads on from the left part. -/
theorem Parts.leadFrom
    (h : c.Parts xs stop prev ys)
    (stop' : Option ρ) :
    ∃ d, c.leadFrom (last none xs) stop' = some d ∧
      d.Parts xs stop' prev ys ∧ Frame c d (refs xs) := by
  rcases List.eq_nil_or_concat xs with rfl | ⟨zs, z, rfl⟩
  · exact ⟨{ c with head := stop' }, rfl,
      ⟨rfl, trivial, h.right, h.apart, h.nodupLeft,
        h.nodupRight⟩,
      ⟨fun _ _ => rfl, fun _ => Iff.rfl⟩⟩
  · rw [List.concat_eq_append] at h ⊢
    have hLeft := segment_append.mp h.left
    have hCell := hLeft.2.1
    have hIn : z.1 ∈ refs (zs ++ [z]) := by simp [refs]
    have hNot : z.1 ∉ refs zs := by
      have hNodup := h.nodupLeft
      simp only [refs, List.map_append, List.map_cons,
        List.map_nil, List.nodup_append',
        List.disjoint_singleton] at hNodup
      exact hNodup.2.2
    have hSome : c.mem z.1 ≠ none := by simp [hCell]
    let new : Cell ρ α := ⟨z.2, last none zs, stop'⟩
    refine ⟨c.put z.1 new, ?_, ⟨?_, ?_, ?_, h.apart,
      h.nodupLeft, h.nodupRight⟩, frame_put new hSome hIn⟩
    · rw [last_append]
      exact edit_eq _ hCell
    · rw [put_head, h.head, first_append, first_append]
      rfl
    · refine segment_append.mpr ⟨?_, ?_, trivial⟩
      · exact segment_put new hLeft.1 hNot
      · exact put_mem _ _ _
    · exact segment_put new h.right (h.apart _ hIn)

/- Writing the pointer that leads back from the right part. -/
theorem Parts.leadBack
    (h : c.Parts xs stop prev ys)
    (prev' : Option ρ) :
    ∃ d, c.leadBack (first ys none) prev' = some d ∧
      d.head = c.head ∧
      d.Parts xs stop prev' ys ∧ Frame c d (refs ys) := by
  cases ys with
  | nil =>
      exact ⟨c, rfl, rfl,
        ⟨h.head, h.left, trivial, h.apart, h.nodupLeft,
          h.nodupRight⟩,
        ⟨fun _ _ => rfl, fun _ => Iff.rfl⟩⟩
  | cons y ys =>
      have hCell := h.right.1
      have hIn : y.1 ∈ refs (y :: ys) := List.mem_cons_self
      have hNot : y.1 ∉ refs ys :=
        (List.nodup_cons.mp h.nodupRight).1
      have hSome : c.mem y.1 ≠ none := by simp [hCell]
      let new : Cell ρ α := ⟨y.2, prev', first ys none⟩
      refine ⟨c.put y.1 new, edit_eq _ hCell, rfl, ⟨h.head,
        ?_, ⟨put_mem _ _ _, ?_⟩, h.apart, h.nodupLeft,
        h.nodupRight⟩, frame_put new hSome hIn⟩
      · exact segment_put new h.left
          fun hr => h.apart _ hr hIn
      · exact segment_put new h.right.2 hNot

end Chain

end DoublyLinked

------------------------------------------------------------
-- Edits of a Whole List
------------------------------------------------------------

namespace DoublyLinked

namespace Chain

variable {ρ α : Type*} {c : Chain ρ α}
variable {xs ys : List (ρ × α)} {x : ρ × α}

/- The cell of any entry, in terms of its neighbours. -/
theorem Holds.cell
    (h : c.Holds (xs ++ x :: ys)) :
    c.mem x.1 =
      some ⟨x.2, last none xs, first ys none⟩ :=
  (segment_append.mp h.linked).2.1

/- An allocated cell is that of an entry. -/
theorem Holds.split
    {r : ρ}
    {cell : Cell ρ α}
    (h : c.Holds xs)
    (hCell : c.mem r = some cell) :
    ∃ zs ys, xs = zs ++ (r, cell.item) :: ys ∧
      cell = ⟨cell.item, last none zs, first ys none⟩ := by
  have hIn := h.full r (by simp [hCell])
  rcases List.mem_map.mp hIn with ⟨x, hx, rfl⟩
  rcases List.append_of_mem hx with ⟨zs, ys, rfl⟩
  have hEq := hCell.symm.trans h.cell
  rw [Option.some.injEq] at hEq
  subst hEq
  exact ⟨zs, ys, rfl, rfl⟩

variable [DecidableEq ρ]

/- A fresh cell in front. -/
theorem Holds.push
    {r : ρ}
    (h : c.Holds xs)
    (hFresh : c.mem r = none)
    (a : α) :
    ∃ d,
      (c.put r ⟨a, none, c.head⟩).leadBack c.head (some r) =
          some d ∧
        ({ d with head := some r } : Chain ρ α).Holds
          ((r, a) :: xs) := by
  have hNot : r ∉ refs xs := by
    intro hr
    rcases List.mem_map.mp hr with ⟨x, hx, rfl⟩
    rcases h.linked.allocated hx with ⟨p, q, hCell⟩
    rw [hFresh] at hCell
    cases hCell
  have hParts :
      (c.put r ⟨a, none, c.head⟩).Parts [] c.head none xs :=
    ⟨rfl, trivial, segment_put _ h.linked hNot,
      fun _ hr => (by cases hr), List.nodup_nil, h.nodup⟩
  rcases hParts.leadBack (some r) with
    ⟨d, hLead, -, hRight, hFrame⟩
  refine ⟨d, ?_, rfl, ⟨?_, hRight.right⟩, ?_, ?_⟩
  · rw [← hLead, h.head]
  · rw [hFrame.same r hNot, put_mem, h.head]
  · exact List.nodup_cons.mpr ⟨hNot, h.nodup⟩
  · intro q hq
    by_cases hqr : q = r
    · rw [hqr]
      exact List.mem_cons_self
    · refine List.mem_cons_of_mem _ (h.full q ?_)
      intro hNone
      apply hq
      rw [hFrame.allocated, put_mem_of_ne _ _ hqr]
      exact hNone

/- Taking a cell out, wherever it stands. -/
theorem Holds.unlink
    (h : c.Holds (xs ++ x :: ys)) :
    ∃ d,
      (c.leadFrom (last none xs) (first ys none)).bind
          (·.leadBack (first ys none) (last none xs)) =
          some d ∧
        (d.free x.1).Holds (xs ++ ys) := by
  have hParts := h.parts
  have hTail := List.nodup_cons.mp hParts.nodupRight
  have hLeftOf : x.1 ∉ refs xs := fun hx =>
    hParts.apart _ hx List.mem_cons_self
  have hOpen :
      c.Parts xs (some x.1) (some x.1) ys :=
    ⟨hParts.head, hParts.left, hParts.right.2,
      fun r hr hy => hParts.apart r hr
        (List.mem_cons_of_mem _ hy),
      hParts.nodupLeft, hTail.2⟩
  rcases hOpen.leadFrom (first ys none) with
    ⟨d, hFrom, hLeft, hFrame⟩
  rcases hLeft.leadBack (last none xs) with
    ⟨e, hBack, -, hBoth, hFrame'⟩
  refine ⟨e, ?_, ?_⟩
  · rw [hFrom, Option.bind_some, hBack]
  · have hFree {q : ρ} (hq : q ≠ x.1) :
        (e.free x.1).mem q = e.mem q :=
      Function.update_of_ne hq _ _
    apply Parts.holds
    · refine ⟨hBoth.head, ?_, ?_, hBoth.apart,
        hBoth.nodupLeft, hBoth.nodupRight⟩
      · exact hBoth.left.congr fun r hr =>
          hFree fun hEq => hLeftOf (hEq ▸ hr)
      · exact hBoth.right.congr fun r hr =>
          hFree fun hEq => hTail.1 (hEq ▸ hr)
    · intro q hq
      by_cases hqx : q = x.1
      · exact absurd (hqx ▸ Function.update_self x.1 _ _) hq
      · have hOld : c.mem q ≠ none := by
          rw [hFree hqx, Ne, hFrame'.allocated,
            hFrame.allocated] at hq
          exact hq
        have hIn := h.full q hOld
        simp only [refs, List.map_append, List.map_cons,
          List.mem_append, List.mem_cons] at hIn ⊢
        tauto

/- Writing the item of a cell. -/
theorem Holds.setItem
    (h : c.Holds (xs ++ x :: ys))
    (a : α) :
    (c.put x.1 ⟨a, last none xs, first ys none⟩).Holds
      (xs ++ (x.1, a) :: ys) := by
  have hParts := h.parts
  have hTail := List.nodup_cons.mp hParts.nodupRight
  have hLeftOf : x.1 ∉ refs xs := fun hx =>
    hParts.apart _ hx List.mem_cons_self
  apply Parts.holds
  · refine ⟨hParts.head, segment_put _ hParts.left hLeftOf,
      ⟨put_mem _ _ _, segment_put _ hParts.right.2 hTail.1⟩,
      hParts.apart, hParts.nodupLeft, hParts.nodupRight⟩
  · intro q hq
    have hOld : c.mem q ≠ none := by
      by_cases hqx : q = x.1
      · rw [hqx, h.cell]
        exact Option.some_ne_none _
      · rw [put_mem_of_ne _ _ hqx] at hq
        exact hq
    have hIn := h.full q hOld
    simpa only [refs, List.map_append, List.map_cons] using
      hIn

end Chain

end DoublyLinked

------------------------------------------------------------
-- Neighbours and Walks
------------------------------------------------------------

namespace DoublyLinked

variable {ρ α : Type*} {c : Chain ρ α}
variable {xs : List (ρ × α)} {r q : ρ} {cell : Cell ρ α}

namespace Chain

theorem Holds.first_prev
    (h : c.Holds xs)
    (hHead : c.head = some r)
    (hCell : c.mem r = some cell) :
    cell.prev = none := by
  cases xs with
  | nil =>
      rw [h.head] at hHead
      cases hHead
  | cons x xs =>
      have hr : x.1 = r := by
        rw [h.head] at hHead
        exact Option.some.inj hHead
      have hEq := (hr ▸ hCell).symm.trans h.linked.1
      rw [Option.some.inj hEq]

theorem Holds.next_prev
    (h : c.Holds xs)
    (hCell : c.mem r = some cell)
    (hNext : cell.next = some q) :
    ∃ after, c.mem q = some after ∧
      after.prev = some r := by
  rcases h.split hCell with ⟨zs, ys, rfl, hEq⟩
  cases ys with
  | nil =>
      rw [hEq] at hNext
      cases hNext
  | cons y ys =>
      rw [hEq] at hNext
      have hq : y.1 = q := Option.some.inj hNext
      have hAfter := (segment_append.mp h.linked).2.2.1
      rw [hq] at hAfter
      exact ⟨_, hAfter, rfl⟩

theorem Holds.prev_next
    (h : c.Holds xs)
    (hCell : c.mem r = some cell)
    (hPrev : cell.prev = some q) :
    ∃ before, c.mem q = some before ∧
      before.next = some r := by
  rcases h.split hCell with ⟨zs, ys, rfl, hEq⟩
  rcases List.eq_nil_or_concat zs with rfl | ⟨ws, z, rfl⟩
  · rw [hEq] at hPrev
    cases hPrev
  · rw [List.concat_eq_append] at h hEq
    rw [hEq, last_append] at hPrev
    have hq : z.1 = q := Option.some.inj hPrev
    rw [List.append_assoc, List.singleton_append] at h
    have hBefore := h.cell
    rw [hq] at hBefore
    exact ⟨_, hBefore, rfl⟩

end Chain

/- Following `next` from `cur` meets the cells of the list. -/
def Traversal
    (m : Mem ρ α) :
    Option ρ → List (ρ × α) → Prop
| cur, [] => cur = none
| cur, x :: xs =>
    cur = some x.1 ∧
      ∃ cell, m x.1 = some cell ∧ cell.item = x.2 ∧
        Traversal m cell.next xs

theorem Segment.traversal
    {m : Mem ρ α}
    {prev : Option ρ}
    (h : Segment m prev xs none) :
    Traversal m (first xs none) xs := by
  induction xs generalizing prev with
  | nil => rfl
  | cons x xs ih => exact ⟨rfl, _, h.1, rfl, ih h.2⟩

/- The walk from the head of a chain. -/
theorem Chain.Holds.traversal
    (h : c.Holds xs) :
    Traversal c.mem c.head xs := by
  rw [h.head]
  exact h.linked.traversal

/-
  Follow `next` from `cur` to the first item that meets `p`.
  The outer `none` is a walk to no cell, or out of fuel.
-/
def seek
    (m : Mem ρ α)
    (p : α → Bool) :
    ℕ → Option ρ → Option (Option ρ)
| _, none => some none
| 0, some _ => none
| fuel + 1, some r =>
    match m r with
    | none => none
    | some cell =>
        if p cell.item then some (some r)
        else seek m p fuel cell.next

/- A walk over a segment finds what a search of its list does. -/
theorem Segment.seek_eq
    {m : Mem ρ α}
    {prev : Option ρ}
    {fuel : ℕ}
    (h : Segment m prev xs none)
    (p : α → Bool)
    (hFuel : xs.length ≤ fuel) :
    seek m p fuel (first xs none) =
      some ((xs.find? fun x => p x.2).map Prod.fst) := by
  induction xs generalizing prev fuel with
  | nil => cases fuel <;> rfl
  | cons x xs ih =>
      cases fuel with
      | zero => cases hFuel
      | succ fuel =>
          rw [first, seek, h.1, List.find?_cons]
          by_cases hp : p x.2
          · simp [hp]
          · simp only [hp, if_false, Bool.false_eq_true]
            exact ih h.2 (Nat.le_of_succ_le_succ hFuel)

/- `seek` from the head of a chain. -/
theorem Chain.Holds.seek
    {fuel : ℕ}
    (h : c.Holds xs)
    (p : α → Bool)
    (hFuel : xs.length ≤ fuel) :
    DoublyLinked.seek c.mem p fuel c.head =
      some ((xs.find? fun x => p x.2).map Prod.fst) := by
  rw [h.head]
  exact h.linked.seek_eq p hFuel

end DoublyLinked
