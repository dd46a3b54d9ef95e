import Mathlib.Tactic.Common

/-
  The options of a command line, as `getopt` finds them.

  An element that starts with a minus sign has option letters
  behind it. A letter that takes an argument has it in the
  rest of its element, or in the next element if nothing is
  left. Other elements are skipped, and `--` ends the search.

  Key definitions include:
    * `Getopt.kindOf`
    * `Getopt.options`
    * `Getopt.Argument`

  Key rules include:
    * `Getopt.options_written`
    * `Getopt.length_of_options`
-/

------------------------------------------------------------
-- Options
------------------------------------------------------------

namespace Getopt

abbrev Text := List UInt8

/- What `getopt` returns: an option, or a question mark. -/
inductive Found where
  | flag (letter : UInt8)
  | valued (letter : UInt8) (arg : Text)
  | bad
deriving DecidableEq

inductive Kind where
  | unknown
  | flag
  | valued
deriving DecidableEq

/- The option string: a colon follows what takes arguments. -/
def kindOf :
    Text → UInt8 → Kind
| [], _ => .unknown
| o :: rest, c =>
    if o = c ∧ c ≠ 58 then
      match rest with
      | 58 :: _ => .valued
      | _ => .flag
    else
      kindOf rest c

/-
  The letters of one element, and the last one if it takes
  the next element as its argument.
-/
def letters
    (kind : UInt8 → Kind) :
    Text → List Found × Option UInt8
| [] => ([], none)
| c :: more =>
    match kind c with
    | .unknown =>
        (.bad :: (letters kind more).1, (letters kind more).2)
    | .flag =>
        (.flag c :: (letters kind more).1,
          (letters kind more).2)
    | .valued =>
        if more = [] then
          ([], some c)
        else
          ([.valued c more], none)

/- The elements, where a letter may wait for its argument. -/
def options
    (kind : UInt8 → Kind) :
    Option UInt8 → List Text → List Found
| none, [] => []
| some _, [] => [.bad]
| some c, arg :: args => .valued c arg :: options kind none args
| none, arg :: args =>
    match arg with
    | 45 :: c :: more =>
        if c = 45 ∧ more = [] then
          []
        else
          (letters kind (c :: more)).1 ++
            options kind (letters kind (c :: more)).2 args
    | _ => options kind none args

section

variable {kind : UInt8 → Kind} {c : UInt8}
variable {arg : Text}

/- `-c arg` -/
theorem options_apart
    (hKind : kind c = .valued)
    (hLetter : c ≠ 45)
    (arg : Text)
    (args : List Text) :
    options kind none ([45, c] :: arg :: args) =
      .valued c arg :: options kind none args := by
  rw [options, if_neg (fun h => hLetter h.1)]
  simp [letters, hKind, options]

/- `-carg` -/
theorem options_joined
    (hKind : kind c = .valued)
    (hSome : arg ≠ [])
    (hLetter : c ≠ 45)
    (args : List Text) :
    options kind none ((45 :: c :: arg) :: args) =
      .valued c arg :: options kind none args := by
  rw [options, if_neg (fun h => hLetter h.1)]
  simp [letters, hKind, hSome]

/- An element without a minus sign, or with nothing else. -/
theorem options_operand
    (hOperand : arg = [45] ∨ arg.head? ≠ some 45)
    (args : List Text) :
    options kind none (arg :: args) =
      options kind none args := by
  rcases hOperand with rfl | hOther
  · rfl
  · cases arg with
    | nil => rfl
    | cons c arg =>
        have hFirst : c ≠ 45 := by
          rintro rfl
          exact hOther rfl
        rw [options]
        intro d more hSame
        exact hFirst (List.cons.inj hSame).1

end

end Getopt

------------------------------------------------------------
-- Written Options
------------------------------------------------------------

namespace Getopt

/- What a command line is written from. -/
inductive Argument where
  | apart (letter : UInt8) (arg : Text)
  | joined (letter : UInt8) (arg : Text)
  | operand (text : Text)

/- Its elements. -/
def Argument.args :
    Argument → List Text
| .apart letter arg => [[45, letter], arg]
| .joined letter arg => [45 :: letter :: arg]
| .operand text => [text]

/- The option it sets, with its argument. -/
def Argument.setting :
    Argument → Option (UInt8 × Text)
| .apart letter arg => some (letter, arg)
| .joined letter arg => some (letter, arg)
| .operand _ => none

/- It is written as it is meant. -/
def Argument.Plain
    (kind : UInt8 → Kind) :
    Argument → Prop
| .apart letter _ => kind letter = .valued ∧ letter ≠ 45
| .joined letter arg =>
    kind letter = .valued ∧ letter ≠ 45 ∧ arg ≠ []
| .operand text => text = [45] ∨ text.head? ≠ some 45

/- The argument of the last option with a letter. -/
def lastOf
    (letter : UInt8) :
    List (UInt8 × Text) → Option Text
| [] => none
| setting :: settings =>
    (lastOf letter settings).or
      (if setting.1 = letter then some setting.2 else none)

section

variable {kind : UInt8 → Kind} {arguments : List Argument}

/- The options are found in the order they are written in. -/
theorem options_written
    (hPlain : ∀ argument ∈ arguments, argument.Plain kind) :
    options kind none (arguments.flatMap Argument.args) =
      (arguments.filterMap Argument.setting).map
        fun setting => .valued setting.1 setting.2 := by
  induction arguments with
  | nil => rfl
  | cons argument arguments ih =>
      rw [List.forall_mem_cons] at hPlain
      have hRest := ih hPlain.2
      have hArgument := hPlain.1
      rw [List.flatMap_cons]
      cases argument with
      | apart letter arg =>
          have hNext := options_apart hArgument.1 hArgument.2 arg
            (arguments.flatMap Argument.args)
          rw [hRest] at hNext
          exact hNext
      | joined letter arg =>
          have hNext := options_joined hArgument.1 hArgument.2.2
            hArgument.2.1 (arguments.flatMap Argument.args)
          rw [hRest] at hNext
          exact hNext
      | operand text =>
          have hNext := @options_operand kind _ hArgument
            (arguments.flatMap Argument.args)
          rw [hRest] at hNext
          exact hNext

end

end Getopt

------------------------------------------------------------
-- What an Option Comes From
------------------------------------------------------------

namespace Getopt

section

variable {kind : UInt8 → Kind} {c : UInt8}
variable {arg text : Text} {args : List Text}

/- An argument in an element is a part of it. -/
theorem length_of_letters
    (h : .valued c arg ∈ (letters kind text).1) :
    arg.length ≤ text.length := by
  induction text with
  | nil => cases h
  | cons d more ih =>
      unfold letters at h
      split at h
      · rcases List.mem_cons.mp h with hBad | hMore
        · cases hBad
        · exact Nat.le_succ_of_le (ih hMore)
      · rcases List.mem_cons.mp h with hFlag | hMore
        · cases hFlag
        · exact Nat.le_succ_of_le (ih hMore)
      · split at h
        · cases h
        · have hSame := List.mem_singleton.mp h
          cases hSame
          exact Nat.le_succ _

/- No argument is longer than the element it is from. -/
theorem length_of_options
    {pending : Option UInt8}
    (h : .valued c arg ∈ options kind pending args) :
    ∃ text ∈ args, arg.length ≤ text.length := by
  induction args generalizing pending with
  | nil =>
      cases pending with
      | none => cases h
      | some d =>
          rw [options, List.mem_singleton] at h
          cases h
  | cons first args ih =>
      have hLater :
          ∀ {pending},
            .valued c arg ∈ options kind pending args →
              ∃ text ∈ first :: args,
                arg.length ≤ text.length := by
        intro pending hArgs
        rcases ih hArgs with ⟨text, hText, hLength⟩
        exact ⟨text, List.mem_cons_of_mem first hText, hLength⟩
      cases pending with
      | some d =>
          rcases List.mem_cons.mp h with hFirst | hRest
          · cases hFirst
            exact ⟨_, List.mem_cons_self, Nat.le_refl _⟩
          · exact hLater hRest
      | none =>
          unfold options at h
          split at h
          · next d more =>
              split at h
              · cases h
              · rcases List.mem_append.mp h with hHere | hRest
                · exact ⟨_, List.mem_cons_self,
                    Nat.le_succ_of_le
                      (length_of_letters hHere)⟩
                · exact hLater hRest
          · exact hLater h

end

end Getopt
