import Mathlib.Data.List.Nodup
import Mathlib.Logic.Function.Basic
import Mathlib.Tactic.Common

/-
  Queues of linked cells with a head and a tail pointer.

  A cell holds an item and a link. `Linked m xs stop` says
  that the cells of `xs` follow each other in the heap `m`
  and that the last one leads to `stop`. `Queue.Holds q xs`
  says what list a queue is: its head points to the first
  cell, its tail to the last one, and the last cell leads
  nowhere. Cells outside the list are free to be anything.

  The rules are for the four edits of such a queue: a cell
  behind the tail, a cell into an empty queue, the head cell
  unlinked, and a write to a cell outside.

  Key definitions include:
    * `LinkedQueue.Linked`
    * `LinkedQueue.Follows`
    * `LinkedQueue.Queue`
    * `LinkedQueue.Queue.Holds`

  Key rules include:
    * `LinkedQueue.Queue.Holds.follows`
    * `LinkedQueue.Queue.Holds.pushed`
    * `LinkedQueue.Queue.Holds.popped`
    * `LinkedQueue.Queue.Holds.congr`
-/

------------------------------------------------------------
-- Cells and Links
------------------------------------------------------------

namespace LinkedQueue

variable {ρ α : Type*}

/- A node of a queue: its item and its link. -/
structure Cell (ρ α : Type*) where
  item : α
  next : Option ρ
deriving DecidableEq

/- The cells that are allocated. -/
abbrev Mem (ρ α : Type*) := ρ → Option (Cell ρ α)

/- Where a list starts: at its first cell, or past it. -/
def first :
    List (ρ × α) → Option ρ → Option ρ
| [], stop => stop
| x :: _, _ => some x.1

/- The cells of `xs` are linked, the last one to `stop`. -/
def Linked
    (m : Mem ρ α) :
    List (ρ × α) → Option ρ → Prop
| [], _ => True
| x :: xs, stop =>
    m x.1 = some ⟨x.2, first xs stop⟩ ∧ Linked m xs stop

/- The references of a list. -/
abbrev refs
    (xs : List (ρ × α)) : List ρ :=
  xs.map Prod.fst

/- Following the links from `start` visits `rs`, then ends. -/
inductive Follows
    (m : Mem ρ α) : Option ρ → List ρ → Prop
| nil : Follows m none []
| cons {r : ρ} {cell : Cell ρ α} {rs : List ρ} :
    m r = some cell →
    Follows m cell.next rs →
    Follows m (some r) (r :: rs)

section

variable {m m' : Mem ρ α} {xs ys : List (ρ × α)}
variable {stop : Option ρ}

@[simp] theorem first_append
    (xs ys : List (ρ × α))
    (stop : Option ρ) :
    first (xs ++ ys) stop = first xs (first ys stop) := by
  cases xs <;> rfl

/- A list of links splits at any place. -/
theorem linked_append :
    Linked m (xs ++ ys) stop ↔
      Linked m xs (first ys stop) ∧ Linked m ys stop := by
  induction xs with
  | nil => simp [Linked]
  | cons x xs ih =>
      simp only [List.cons_append, Linked, first_append, ih,
        and_assoc]

/- It reads nothing but its own cells. -/
theorem Linked.congr
    (h : Linked m xs stop)
    (hSame : ∀ r ∈ refs xs, m' r = m r) :
    Linked m' xs stop := by
  induction xs with
  | nil => trivial
  | cons x xs ih =>
      refine ⟨?_, ih h.2 fun r hr => hSame r ?_⟩
      · rw [hSame x.1 List.mem_cons_self]
        exact h.1
      · exact List.mem_cons_of_mem _ hr

/- Every cell of the list is allocated. -/
theorem Linked.allocated
    {x : ρ × α}
    (h : Linked m xs stop)
    (hx : x ∈ xs) :
    ∃ next, m x.1 = some ⟨x.2, next⟩ := by
  induction xs with
  | nil => cases hx
  | cons y xs ih =>
      rcases List.mem_cons.mp hx with rfl | hx
      · exact ⟨_, h.1⟩
      · exact ih h.2 hx

/- Following the links visits the cells in order. -/
theorem Linked.follows
    (h : Linked m xs none) :
    Follows m (first xs none) (refs xs) := by
  induction xs with
  | nil => exact .nil
  | cons x xs ih => exact .cons h.1 (ih h.2)

end

end LinkedQueue

------------------------------------------------------------
-- Queues
------------------------------------------------------------

namespace LinkedQueue

/- A heap of cells and the two ends of the queue in it. -/
structure Queue (ρ α : Type*) where
  head : Option ρ
  tail : Option ρ
  mem : Mem ρ α

namespace Queue

variable {ρ α : Type*}

/-
  The queue is the list `xs`: its head points to the first
  cell and its tail to the last, the cells are linked up to
  the end, and none comes twice.
-/
structure Holds
    (q : Queue ρ α)
    (xs : List (ρ × α)) : Prop where
  head : q.head = first xs none
  tail : q.tail = (refs xs).getLast?
  linked : Linked q.mem xs none
  nodup : (refs xs).Nodup

section

variable {q : Queue ρ α} {xs ys : List (ρ × α)}
variable {x : ρ × α} {r : ρ} {item : α}

/- Both ends are null in an empty queue, and only there. -/
theorem Holds.head_eq_none_iff
    (h : q.Holds xs) :
    q.head = none ↔ xs = [] := by
  rw [h.head]
  cases xs <;> simp [first]

theorem Holds.tail_eq_none_iff
    (h : q.Holds xs) :
    q.tail = none ↔ xs = [] := by
  rw [h.tail]
  simp

/- The links lead from the head through the whole list. -/
theorem Holds.follows
    (h : q.Holds xs) :
    Follows q.mem q.head (refs xs) := by
  rw [h.head]
  exact h.linked.follows

/- A queue with equal ends has no second cell. -/
theorem Holds.head_eq_tail
    (h : q.Holds (x :: xs))
    (hEq : q.head = q.tail) :
    xs = [] := by
  rw [h.head, h.tail] at hEq
  rcases List.eq_nil_or_concat xs with hNil | ⟨ys, y, rfl⟩
  · exact hNil
  · -- The first reference would be the last one as well.
    have hNodup := h.nodup
    have hSame : x.1 = y.1 := by
      rw [List.concat_eq_append, ← List.cons_append, refs,
        List.map_append, List.map_singleton,
        List.getLast?_concat] at hEq
      exact Option.some.inj hEq
    simp [refs, hSame] at hNodup

/- A queue does not depend on cells outside it. -/
theorem Holds.congr
    {d : Queue ρ α}
    (h : q.Holds xs)
    (hHead : d.head = q.head)
    (hTail : d.tail = q.tail)
    (hSame : ∀ s ∈ refs xs, d.mem s = q.mem s) :
    d.Holds xs where
  head := hHead.trans h.head
  tail := hTail.trans h.tail
  linked := h.linked.congr hSame
  nodup := h.nodup

/- A detached cell is a queue of its own. -/
theorem holds_single
    (hCell : q.mem r = some ⟨item, none⟩) :
    { q with head := some r, tail := some r }.Holds
      [(r, item)] where
  head := rfl
  tail := rfl
  linked := ⟨hCell, trivial⟩
  nodup := List.nodup_singleton r

end

variable [DecidableEq ρ]

/- Write a cell, allocated or not. -/
def put
    (r : ρ)
    (cell : Cell ρ α)
    (q : Queue ρ α) : Queue ρ α :=
  { q with mem := Function.update q.mem r (some cell) }

def free
    (r : ρ)
    (q : Queue ρ α) : Queue ρ α :=
  { q with mem := Function.update q.mem r none }

section

variable {q : Queue ρ α} {xs : List (ρ × α)}
variable {x : ρ × α} {r : ρ} {item : α}

@[simp] theorem put_head
    (r : ρ)
    (cell : Cell ρ α)
    (q : Queue ρ α) :
    (q.put r cell).head = q.head := rfl

@[simp] theorem put_tail
    (r : ρ)
    (cell : Cell ρ α)
    (q : Queue ρ α) :
    (q.put r cell).tail = q.tail := rfl

@[simp] theorem put_mem
    (r : ρ)
    (cell : Cell ρ α)
    (q : Queue ρ α) :
    (q.put r cell).mem r = some cell :=
  Function.update_self r _ q.mem

theorem put_mem_of_ne
    {s : ρ}
    (cell : Cell ρ α)
    (q : Queue ρ α)
    (h : s ≠ r) :
    (q.put r cell).mem s = q.mem s :=
  Function.update_of_ne h _ _

theorem Holds.put
    (h : q.Holds xs)
    (hOut : r ∉ refs xs)
    (cell : Cell ρ α) :
    (q.put r cell).Holds xs := by
  refine h.congr (d := q.put r cell) rfl rfl fun s hs => ?_
  exact put_mem_of_ne _ _ fun hEq => hOut (hEq ▸ hs)

theorem Holds.free
    (h : q.Holds xs)
    (hOut : r ∉ refs xs) :
    (q.free r).Holds xs := by
  refine h.congr (d := q.free r) rfl rfl fun s hs => ?_
  apply Function.update_of_ne
  rintro rfl
  exact hOut hs

/- A detached cell linked behind the last one. -/
theorem Holds.pushed
    (h : q.Holds (xs ++ [x]))
    (hCell : q.mem r = some ⟨item, none⟩)
    (hOut : r ∉ refs (xs ++ [x])) :
    { q.put x.1 ⟨x.2, some r⟩ with tail := some r }.Holds
      (xs ++ [x] ++ [(r, item)]) := by
  have hNodup := h.nodup
  rw [refs, List.map_append, List.nodup_append'] at hNodup
  have hLast : x.1 ∉ refs xs := fun hx =>
    hNodup.2.2 hx List.mem_cons_self
  have hOther : r ≠ x.1 := by
    rintro rfl
    exact hOut (by simp [refs])
  have hLinked := (linked_append.mp h.linked).1
  refine ⟨?_, ?_, ?_, ?_⟩
  · rw [put_head, h.head, first_append, first_append,
      first_append]
    rfl
  · simp [refs]
  · rw [List.append_assoc, linked_append]
    refine ⟨hLinked.congr fun s hs => ?_, ?_, ?_, trivial⟩
    · exact put_mem_of_ne _ _ fun hEq => hLast (hEq ▸ hs)
    · exact put_mem _ _ _
    · exact (put_mem_of_ne _ _ hOther).trans hCell
  · rw [refs, List.map_append, List.nodup_append']
    refine ⟨h.nodup, List.nodup_singleton r, ?_⟩
    intro s hs hr
    rw [List.map_singleton, List.mem_singleton] at hr
    subst hr
    exact hOut hs

/- The first cell unlinked, the rest of the queue kept. -/
theorem Holds.popped
    (h : q.Holds (x :: xs)) :
    { q.put x.1 ⟨x.2, none⟩ with
      head := first xs none
      tail := if q.head = q.tail then none else q.tail }.Holds
        xs := by
  have hNodup := List.nodup_cons.mp h.nodup
  refine ⟨rfl, ?_, ?_, hNodup.2⟩
  · split
    · next hEq =>
        rw [h.head_eq_tail hEq]
        rfl
    · next hNe =>
        rw [h.tail]
        cases xs with
        | nil =>
            refine absurd ?_ hNe
            rw [h.head, h.tail]
            rfl
        | cons y xs => simp [refs]
  · exact h.linked.2.congr fun s hs =>
      put_mem_of_ne _ _ fun hEq => hNodup.1 (hEq ▸ hs)

end

end Queue

end LinkedQueue
