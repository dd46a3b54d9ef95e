import Mathlib.Data.List.TakeWhile
import Mathlib.Tactic.Common

/-
  Reading a text line by line with C's `fgets`.

  A call takes bytes up to a newline, and no more than the
  buffer has room for, so a line that is too long comes in
  pieces. `lines` is what the calls give until the end of the
  file. Of a text whose lines fit, they are the lines.

  Key definitions include:
    * `Fgets.next`
    * `Fgets.lines`

  Key rules include:
    * `Fgets.length_of_mem_lines`
    * `Fgets.lines_joined`
-/

------------------------------------------------------------
-- Calls of fgets
------------------------------------------------------------

namespace Fgets

abbrev Text := List UInt8

/-
  One call with a buffer for `room` bytes and a terminating
  zero: the line, and what is left of the text.
-/
def next :
    Nat → Text → Text × Text
| 0, input => ([], input)
| _ + 1, [] => ([], [])
| room + 1, c :: input =>
    if c = 10 then
      ([10], input)
    else
      (c :: (next room input).1, (next room input).2)

/- The calls up to the end of the file. -/
def linesFrom
    (room : Nat) :
    Nat → Text → List Text
| 0, _ => []
| _ + 1, [] => []
| fuel + 1, c :: input =>
    (next room (c :: input)).1 ::
      linesFrom room fuel (next room (c :: input)).2

def lines
    (room : Nat)
    (input : Text) : List Text :=
  linesFrom room input.length input

section

variable {room fuel : Nat} {input line rest : Text}

/- A line fits the buffer. -/
theorem length_next_le
    (room : Nat)
    (input : Text) :
    (next room input).1.length ≤ room := by
  induction room generalizing input with
  | zero => exact Nat.le_refl _
  | succ room ih =>
      cases input with
      | nil => exact Nat.zero_le _
      | cons c input =>
          unfold next
          split
          · exact Nat.succ_le_succ (Nat.zero_le room)
          · exact Nat.succ_le_succ (ih input)

theorem length_of_mem_linesFrom
    (h : line ∈ linesFrom room fuel input) :
    line.length ≤ room := by
  induction fuel generalizing input with
  | zero => cases h
  | succ fuel ih =>
      cases input with
      | nil => cases h
      | cons c input =>
          rcases List.mem_cons.mp h with rfl | hRest
          · exact length_next_le room _
          · exact ih hRest

theorem length_of_mem_lines
    (h : line ∈ lines room input) :
    line.length ≤ room :=
  length_of_mem_linesFrom h

/- A line that fits is read at once. -/
theorem next_joined
    (hLine : 10 ∉ line)
    (hFits : line.length < room)
    (rest : Text) :
    next room (line ++ 10 :: rest) = (line ++ [10], rest) := by
  induction line generalizing room with
  | nil =>
      cases room with
      | zero => omega
      | succ room => rfl
  | cons c line ih =>
      cases room with
      | zero => omega
      | succ room =>
          have hOther : c ≠ 10 := by
            rintro rfl
            exact hLine List.mem_cons_self
          have hRest : 10 ∉ line :=
            fun h => hLine (List.mem_cons_of_mem c h)
          rw [List.length_cons] at hFits
          rw [List.cons_append, next, if_neg hOther,
            ih hRest (by omega)]
          rfl

/- The lines of a text are read one by one. -/
theorem linesFrom_joined
    {texts : List Text}
    (hLines : ∀ text ∈ texts, 10 ∉ text)
    (hFit : ∀ text ∈ texts, text.length < room)
    (hFuel :
      (texts.map (· ++ [10])).flatten.length ≤ fuel) :
    linesFrom room fuel (texts.map (· ++ [10])).flatten =
      texts.map (· ++ [10]) := by
  induction texts generalizing fuel with
  | nil => cases fuel <;> rfl
  | cons text texts ih =>
      rw [List.forall_mem_cons] at hLines hFit
      have hNext := next_joined hLines.1 hFit.1
        (texts.map (· ++ [10])).flatten
      rw [List.map_cons, List.flatten_cons,
        List.length_append, List.length_append,
        List.length_singleton] at hFuel
      cases fuel with
      | zero => omega
      | succ fuel =>
          have hLess :
              (texts.map (· ++ [10])).flatten.length ≤ fuel := by
            omega
          have hRest := ih hLines.2 hFit.2 hLess
          rw [List.map_cons, List.flatten_cons,
            List.append_assoc, List.singleton_append]
          cases hText :
              text ++ 10 :: (texts.map (· ++ [10])).flatten with
          | nil => simp at hText
          | cons c input =>
              rw [linesFrom, ← hText, hNext, hRest]

theorem lines_joined
    {texts : List Text}
    (hLines : ∀ text ∈ texts, 10 ∉ text)
    (hFit : ∀ text ∈ texts, text.length < room) :
    lines room (texts.map (· ++ [10])).flatten =
      texts.map (· ++ [10]) :=
  linesFrom_joined hLines hFit (Nat.le_refl _)

end

end Fgets
