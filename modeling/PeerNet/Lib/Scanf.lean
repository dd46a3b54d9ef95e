import Mathlib.Algebra.Ring.Int.Defs
import Mathlib.Algebra.Ring.Nat
import Mathlib.Data.List.TakeWhile
import Mathlib.Logic.Basic
import Mathlib.Tactic.Common

/-
  The parts of C's formatted input and output that read and
  write decimal numbers, words and hexadecimal text.

  A text is a list of bytes, read from the front. The
  conversions follow the C library: `%d` and `%s` skip white
  space first, `%d` gives back the first byte that cannot
  belong to a number (but not a sign it has already taken),
  and a call stops at its first conversion that fails.

  Key definitions include:
    * `Scanf.scanInt`
    * `Scanf.scanWord`
    * `Scanf.scanIntWord`
    * `Scanf.scanLiteralWord`
    * `Scanf.scanWordMax`
    * `Scanf.scanIntWordInt`
    * `Scanf.printInt`
    * `Scanf.Items`

  Key rules include:
    * `Scanf.scanIntWord_spaces`
    * `Scanf.scanIntWord_pair`
    * `Scanf.Item.scan`
    * `Scanf.NoNumber.scan`
    * `Scanf.digitsValue_printDigits`
    * `Scanf.scanWordMax_iff`
    * `Scanf.scanIntWordInt_printed`
-/

------------------------------------------------------------
-- Characters
------------------------------------------------------------

namespace Scanf

abbrev Text := List UInt8

/- The bytes for which `isspace` holds in the C locale. -/
def isSpace
    (c : UInt8) : Bool :=
  c == 32 || (9 ≤ c && c ≤ 13)

def isDigit
    (c : UInt8) : Bool :=
  48 ≤ c && c ≤ 57

def skipSpace
    (input : Text) : Text :=
  input.dropWhile isSpace

end Scanf

------------------------------------------------------------
-- Single Conversions
------------------------------------------------------------

namespace Scanf

/-
  The end of one conversion: a value, a byte that does not
  match, or the end of the text before anything matched.
-/
inductive Conversion (α : Type) where
  | value (a : α) (rest : Text)
  | mismatch (rest : Text)
  | eof
deriving DecidableEq

/- The number a list of decimal digits stands for. -/
def digitsValue
    (digits : Text) : Nat :=
  digits.foldl (fun n c => 10 * n + (c.toNat - 48)) 0

/-
  What `%d` stores in an `int`: the digits are converted to
  a 64-bit `long`, saturating, and its low 32 bits are kept.
-/
def storeInt
    (value : Int) : Int :=
  Int.bmod (max (-2 ^ 63) (min (2 ^ 63 - 1) value)) (2 ^ 32)

/- The digits of a `%d` conversion, after its sign. -/
def scanDigits
    (negative : Bool)
    (input : Text) : Conversion Int :=
  match input.takeWhile isDigit with
  | [] => .mismatch input
  | digits =>
      let value : Int := digitsValue digits
      .value
        (storeInt (if negative then -value else value))
        (input.dropWhile isDigit)

/- The `%d` conversion. -/
def scanInt
    (input : Text) : Conversion Int :=
  match skipSpace input with
  | [] => .eof
  | c :: rest =>
      if c = 45 then
        scanDigits true rest
      else if c = 43 then
        scanDigits false rest
      else
        scanDigits false (c :: rest)

/- The `%s` conversion. -/
def scanWord
    (input : Text) : Conversion Text :=
  match skipSpace input with
  | [] => .eof
  | c :: rest =>
      .value
        ((c :: rest).takeWhile (fun d => !isSpace d))
        ((c :: rest).dropWhile (fun d => !isSpace d))

end Scanf

------------------------------------------------------------
-- Formats
------------------------------------------------------------

namespace Scanf

/-
  The result of `fscanf(f, "%d %s", &id, buf)`: `EOF`, or
  the number of items stored, with the items and the rest of
  the text.
-/
inductive IntWord where
  | eof
  | none (rest : Text)
  | int (id : Int) (rest : Text)
  | both (id : Int) (word : Text) (rest : Text)
deriving DecidableEq

/- The format `"%d %s"`. -/
def scanIntWord
    (input : Text) : IntWord :=
  match scanInt input with
  | .eof => .eof
  | .mismatch rest => .none rest
  | .value id rest =>
      match scanWord rest with
      | .eof => .int id []
      | .mismatch rest => .int id rest
      | .value word rest => .both id word rest

/- Match a literal directive byte by byte. -/
def scanLiteral :
    Text → Text → Conversion Unit
| [], input => .value () input
| _ :: _, [] => .eof
| l :: literal, c :: input =>
    if l = c then
      scanLiteral literal input
    else
      .mismatch (c :: input)

/- A literal followed by `" %s"`. -/
def scanLiteralWord
    (literal input : Text) : Conversion Text :=
  match scanLiteral literal input with
  | .eof => .eof
  | .mismatch rest => .mismatch rest
  | .value _ rest => scanWord rest

/- `%d` in formatted output. -/
def printInt
    (value : Int) : Text :=
  let digits :=
    (Nat.toDigits 10 value.natAbs).map
      (fun c => UInt8.ofNat c.toNat)
  if value < 0 then 45 :: digits else digits

end Scanf

------------------------------------------------------------
-- Reading What Was Written
------------------------------------------------------------

namespace Scanf

/- A number that `%d` reads to its last byte. -/
structure Number
    (digits : Text) : Prop where
  some : digits ≠ []
  all : ∀ c ∈ digits, isDigit c = true

theorem Number.single
    {c : UInt8}
    (hDigit : isDigit c = true) :
    Number [c] where
  some := List.cons_ne_nil c []
  all := by
    intro d hd
    rw [List.mem_singleton.mp hd]
    exact hDigit

/- A word that `%s` reads to its last byte. -/
structure Word
    (word : Text) : Prop where
  some : word ≠ []
  all : ∀ c ∈ word, isSpace c = false

/- A place at which a word ends. -/
def WordEnd
    (rest : Text) : Prop :=
  ∀ c ∈ rest.head?, isSpace c = true

section

variable {input digits word rest : Text} {c : UInt8}
variable {p : UInt8 → Bool}

theorem takeWhile_append_of_all
    (hAll : ∀ c ∈ word, p c = true)
    (hEnd : ∀ c ∈ rest.head?, p c = false) :
    (word ++ rest).takeWhile p = word := by
  rw [List.takeWhile_append_of_pos hAll]
  cases rest with
  | nil => simp
  | cons c rest => simp [hEnd c rfl]

theorem dropWhile_append_of_all
    (hAll : ∀ c ∈ word, p c = true)
    (hEnd : ∀ c ∈ rest.head?, p c = false) :
    (word ++ rest).dropWhile p = rest := by
  rw [List.dropWhile_append_of_pos hAll]
  cases rest with
  | nil => simp
  | cons c rest => simp [hEnd c rfl]

theorem skipSpace_space
    (hSpace : isSpace c = true)
    (input : Text) :
    skipSpace (c :: input) = skipSpace input := by
  simp [skipSpace, hSpace]

theorem skipSpace_word
    (hWord : isSpace c = false)
    (input : Text) :
    skipSpace (c :: input) = c :: input := by
  simp [skipSpace, hWord]

/- White space in front of an item is skipped. -/
theorem scanIntWord_space
    (hSpace : isSpace c = true)
    (input : Text) :
    scanIntWord (c :: input) = scanIntWord input := by
  unfold scanIntWord scanInt
  rw [skipSpace_space hSpace]

theorem scanIntWord_spaces
    (hSpaces : ∀ c ∈ input, isSpace c = true)
    (rest : Text) :
    scanIntWord (input ++ rest) = scanIntWord rest := by
  induction input with
  | nil => rfl
  | cons c input ih =>
      rw [List.forall_mem_cons] at hSpaces
      rw [List.cons_append, scanIntWord_space hSpaces.1,
        ih hSpaces.2]

/- Nothing but white space is left. -/
theorem scanIntWord_blank
    (hBlank : ∀ c ∈ input, isSpace c = true) :
    scanIntWord input = .eof := by
  have hEnd := scanIntWord_spaces hBlank []
  rw [List.append_nil] at hEnd
  rw [hEnd]
  rfl

/- A word that does not start like a number is given back. -/
theorem scanIntWord_mismatch
    (hWord : isSpace c = false)
    (hDigit : isDigit c = false)
    (hMinus : c ≠ 45)
    (hPlus : c ≠ 43)
    (rest : Text) :
    scanIntWord (c :: rest) = .none (c :: rest) := by
  have hNone : (c :: rest).takeWhile isDigit = [] := by
    simp [hDigit]
  unfold scanIntWord scanInt
  rw [skipSpace_word hWord]
  dsimp only
  rw [if_neg hMinus, if_neg hPlus]
  unfold scanDigits
  rw [hNone]

/- A number does not start with anything but a digit. -/
theorem plain_of_isDigit
    (h : isDigit c = true) :
    isSpace c = false ∧ c ≠ 45 ∧ c ≠ 43 := by
  simp only [isDigit, Bool.and_eq_true, decide_eq_true_eq,
    UInt8.le_iff_toNat_le] at h
  have hLow : (48 : UInt8).toNat = 48 := rfl
  rw [hLow] at h
  refine ⟨?_, ?_, ?_⟩
  · have hHigh : (13 : UInt8).toNat = 13 := rfl
    have hBlank : c ≠ 32 := by
      rintro rfl
      exact absurd h.1 (by decide)
    simp only [isSpace, Bool.or_eq_false_iff, beq_eq_false_iff_ne,
      Bool.and_eq_false_iff, decide_eq_false_iff_not,
      UInt8.le_iff_toNat_le, hHigh]
    exact ⟨hBlank, .inr (by omega)⟩
  · rintro rfl
    exact absurd h.1 (by decide)
  · rintro rfl
    exact absurd h.1 (by decide)

/- A number does not start with a sign. -/
theorem not_sign_of_number
    (h : Number digits)
    (rest : Text) :
    (digits ++ rest).head? ≠ some 45 := by
  cases digits with
  | nil => exact absurd rfl h.some
  | cons c digits =>
      have hPlain :=
        plain_of_isDigit (h.all c List.mem_cons_self)
      intro hSign
      exact hPlain.2.1 (Option.some.inj hSign)

theorem scanDigits_number
    (negative : Bool)
    (h : Number digits)
    (hEnd : ∀ c ∈ rest.head?, isDigit c = false) :
    scanDigits negative (digits ++ rest) =
      .value
        (storeInt
          (if negative then -(digitsValue digits : Int)
          else digitsValue digits)) rest := by
  unfold scanDigits
  rw [takeWhile_append_of_all h.all hEnd,
    dropWhile_append_of_all h.all hEnd]
  cases digits with
  | nil => exact absurd rfl h.some
  | cons c digits => rfl

/- A number with a minus sign or without one. -/
def signed
    (negative : Bool)
    (digits : Text) : Text :=
  if negative then 45 :: digits else digits

theorem scanInt_signed
    (negative : Bool)
    (h : Number digits)
    (hEnd : ∀ c ∈ rest.head?, isDigit c = false) :
    scanInt (signed negative digits ++ rest) =
      .value
        (storeInt
          (if negative then -(digitsValue digits : Int)
          else digitsValue digits)) rest := by
  have hDigits := scanDigits_number negative h hEnd
  unfold scanInt signed
  cases negative with
  | true =>
      have hSign : isSpace 45 = false := by decide
      rw [if_pos rfl, List.cons_append,
        skipSpace_word hSign]
      dsimp only
      rw [if_pos rfl, hDigits]
  | false =>
      rw [if_neg Bool.false_ne_true]
      cases digits with
      | nil => exact absurd rfl h.some
      | cons c digits =>
          rcases plain_of_isDigit
              (h.all c List.mem_cons_self) with
            ⟨hWord, hMinus, hPlus⟩
          rw [List.cons_append, skipSpace_word hWord]
          dsimp only
          rw [if_neg hMinus, if_neg hPlus,
            ← List.cons_append, hDigits]

theorem scanWord_word
    (h : Word word)
    (hEnd : WordEnd rest) :
    scanWord (word ++ rest) = .value word rest := by
  have hAll : ∀ c ∈ word, (!isSpace c) = true := by
    intro c hc
    rw [h.all c hc]
    rfl
  have hLast : ∀ c ∈ rest.head?, (!isSpace c) = false := by
    intro c hc
    rw [hEnd c hc]
    rfl
  have hTake := takeWhile_append_of_all hAll hLast
  have hDrop := dropWhile_append_of_all hAll hLast
  unfold scanWord
  cases word with
  | nil => exact absurd rfl h.some
  | cons c word =>
      rw [List.cons_append,
        skipSpace_word (h.all c List.mem_cons_self)]
      dsimp only
      rw [← List.cons_append, hTake, hDrop]

/- A number, a blank and a word. -/
theorem scanIntWord_pair
    (negative : Bool)
    (hNumber : Number digits)
    (hWord : Word word)
    (hEnd : WordEnd rest) :
    scanIntWord
        (signed negative digits ++ 32 :: (word ++ rest)) =
      .both
        (storeInt
          (if negative then -(digitsValue digits : Int)
          else digitsValue digits)) word rest := by
  have hBlank :
      ∀ c ∈ (32 :: (word ++ rest) : Text).head?,
        isDigit c = false := by
    intro c hc
    rw [← Option.some.inj hc]
    decide
  have hSkip :
      scanWord (32 :: (word ++ rest)) =
        scanWord (word ++ rest) := by
    have hSpace : isSpace 32 = true := by decide
    unfold scanWord
    rw [skipSpace_space hSpace]
  unfold scanIntWord
  rw [scanInt_signed negative hNumber hBlank]
  dsimp only
  rw [hSkip, scanWord_word hWord hEnd]

/- What a conversion leaves is the end of its text. -/
theorem scanWord_value
    (h : scanWord input = .value word rest) :
    ∃ before, input = before ++ (word ++ rest) ∧
      ∀ c ∈ word, isSpace c = false := by
  unfold scanWord at h
  split at h
  · cases h
  · next c left hSkip =>
      simp only [Conversion.value.injEq] at h
      rcases h with ⟨rfl, rfl⟩
      refine ⟨input.takeWhile isSpace, ?_, ?_⟩
      · rw [List.takeWhile_append_dropWhile, ← hSkip]
        exact List.takeWhile_append_dropWhile.symm
      · intro d hd
        simpa using List.mem_takeWhile_imp hd

theorem scanWord_cases
    (input : Text) :
    scanWord input = .eof ∨
      ∃ word rest, scanWord input = .value word rest := by
  unfold scanWord
  split
  · exact .inl rfl
  · exact .inr ⟨_, _, rfl⟩

theorem scanDigits_value
    {negative : Bool}
    {id : Int}
    (h : scanDigits negative input = .value id rest) :
    ∃ before, before ≠ [] ∧ input = before ++ rest := by
  unfold scanDigits at h
  split at h
  · cases h
  · next hDigits =>
      simp only [Conversion.value.injEq] at h
      rw [← h.2]
      exact ⟨_, hDigits,
        List.takeWhile_append_dropWhile.symm⟩

theorem scanDigits_none
    {negative : Bool}
    (h : scanDigits negative input = .mismatch rest) :
    rest = input := by
  unfold scanDigits at h
  split at h
  · exact (Conversion.mismatch.inj h).symm
  · cases h

/- `%d` takes at least a byte off for a number. -/
theorem scanInt_value
    {id : Int}
    (h : scanInt input = .value id rest) :
    ∃ before, before ≠ [] ∧ input = before ++ rest := by
  have hInput :
      input.takeWhile isSpace ++ skipSpace input = input :=
    List.takeWhile_append_dropWhile
  have hDigits :
      ∃ before, before ≠ [] ∧
        skipSpace input = before ++ rest := by
    unfold scanInt at h
    split at h
    · cases h
    · next c left hSkip =>
        rw [hSkip]
        split at h
        · rcases scanDigits_value h with ⟨before, _, rfl⟩
          exact ⟨c :: before, by simp, rfl⟩
        split at h
        · rcases scanDigits_value h with ⟨before, _, rfl⟩
          exact ⟨c :: before, by simp, rfl⟩
        · exact scanDigits_value h
  rcases hDigits with ⟨before, hSome, hSkip⟩
  rw [hSkip, ← List.append_assoc] at hInput
  exact ⟨_, by simp [hSome], hInput.symm⟩

theorem scanInt_mismatch
    (h : scanInt input = .mismatch rest) :
    ∃ before, input = before ++ rest := by
  have hInput :
      input.takeWhile isSpace ++ skipSpace input = input :=
    List.takeWhile_append_dropWhile
  have hEnd : ∃ before, skipSpace input = before ++ rest := by
    unfold scanInt at h
    split at h
    · cases h
    · next c left hSkip =>
        rw [hSkip]
        split at h
        · rw [scanDigits_none h]
          exact ⟨[c], rfl⟩
        split at h
        · rw [scanDigits_none h]
          exact ⟨[c], rfl⟩
        · rw [scanDigits_none h]
          exact ⟨[], rfl⟩
  rcases hEnd with ⟨before, hSkip⟩
  rw [hSkip, ← List.append_assoc] at hInput
  exact ⟨_, hInput.symm⟩

/- Nothing was stored: the rest of the text. -/
theorem scanIntWord_none
    (h : scanIntWord input = .none rest) :
    ∃ before, input = before ++ rest := by
  unfold scanIntWord at h
  cases hInt : scanInt input with
  | eof => simp [hInt] at h
  | mismatch left =>
      rw [hInt] at h
      rw [← IntWord.none.inj h]
      exact scanInt_mismatch hInt
  | value id left =>
      rw [hInt] at h
      rcases scanWord_cases left with hWord | ⟨_, _, hWord⟩
      · simp [hWord] at h
      · simp [hWord] at h

/- Only a number was stored: the text is at its end. -/
theorem scanIntWord_int
    {id : Int}
    (h : scanIntWord input = .int id rest) :
    input ≠ [] ∧ rest = [] := by
  unfold scanIntWord at h
  cases hInt : scanInt input with
  | eof => simp [hInt] at h
  | mismatch left => simp [hInt] at h
  | value id left =>
      rw [hInt] at h
      rcases scanInt_value hInt with ⟨before, hSome, hInput⟩
      rcases scanWord_cases left with hWord | ⟨_, _, hWord⟩
      · simp only [hWord, IntWord.int.injEq] at h
        refine ⟨?_, h.2.symm⟩
        rw [hInput]
        simp [hSome]
      · simp [hWord] at h

/- Both were stored: a number, the word and the rest. -/
theorem scanIntWord_both
    {id : Int}
    (h : scanIntWord input = .both id word rest) :
    ∃ before, before ≠ [] ∧
      input = before ++ (word ++ rest) ∧
        ∀ c ∈ word, isSpace c = false := by
  unfold scanIntWord at h
  cases hInt : scanInt input with
  | eof => simp [hInt] at h
  | mismatch left => simp [hInt] at h
  | value id left =>
      rw [hInt] at h
      rcases scanInt_value hInt with ⟨before, hSome, hInput⟩
      rcases scanWord_cases left with
        hWord | ⟨word', rest', hWord⟩
      · simp [hWord] at h
      · simp only [hWord, IntWord.both.injEq] at h
        rcases h with ⟨_, rfl, rfl⟩
        rcases scanWord_value hWord with
          ⟨before', hLeft, hAll⟩
        refine ⟨before ++ before', by simp [hSome], ?_,
          hAll⟩
        rw [hInput, hLeft, List.append_assoc]

/- An `int` is stored as it is, and no other number. -/
theorem storeInt_eq_iff
    {value : Int} :
    storeInt value = value ↔
      -2 ^ 31 ≤ value ∧ value < 2 ^ 31 := by
  unfold storeInt
  rw [Int.bmod_def]
  omega

end

end Scanf

------------------------------------------------------------
-- Items One After Another
------------------------------------------------------------

namespace Scanf

/- A number as `%d` takes it, with its sign. -/
structure Numeral
    (sign digits : Text) : Prop where
  signs : sign = [] ∨ sign = [43] ∨ sign = [45]
  number : Number digits

/-
  White space, a number, white space and a word. Without
  white space between them the word does not go on like the
  number.
-/
structure Item
    (spaces sign digits gap word rest : Text) : Prop where
  leading : ∀ c ∈ spaces, isSpace c = true
  numeral : Numeral sign digits
  between : ∀ c ∈ gap, isSpace c = true
  whole : Word word
  apart : ∀ c ∈ (gap ++ word).head?, isDigit c = false
  ends : WordEnd rest

/- White space and a sign, with no number behind it. -/
structure LoneSign
    (spaces : Text)
    (c : UInt8)
    (rest : Text) : Prop where
  leading : ∀ c ∈ spaces, isSpace c = true
  sign : c = 43 ∨ c = 45
  apart : ∀ d ∈ rest.head?, isDigit d = false

/-
  A text that starts with items and lone signs. A state
  follows the words and meets `p` behind each of them.
-/
inductive Items
    {β : Type}
    (f : Text → β → β)
    (p : β → Prop) :
    β → Text → β → Text → Prop
| nil (b : β) (text : Text) :
    Items f p b text b text
| sign
    (b b' : β)
    (spaces rest rest' : Text)
    (c : UInt8) :
    LoneSign spaces c rest →
    p b →
    Items f p b rest b' rest' →
    Items f p b (spaces ++ c :: rest) b' rest'
| item
    (b b' : β)
    (spaces sign digits gap word rest rest' : Text) :
    Item spaces sign digits gap word rest →
    p (f word b) →
    Items f p (f word b) rest b' rest' →
    Items f p b
      (spaces ++ (sign ++ (digits ++ (gap ++ (word ++ rest)))))
      b' rest'

/- White space and maybe a sign, but no number behind it. -/
structure NoNumber
    (spaces sign : Text)
    (c : UInt8) : Prop where
  leading : ∀ c ∈ spaces, isSpace c = true
  signs : sign = [] ∨ sign = [43] ∨ sign = [45]
  letter : isSpace c = false
  digit : isDigit c = false
  minus : c ≠ 45
  plus : c ≠ 43

section

variable {spaces sign digits gap word rest tail : Text}
variable {c : UInt8}

theorem scanInt_numeral
    (h : Numeral sign digits)
    (hEnd : ∀ c ∈ rest.head?, isDigit c = false) :
    ∃ id, scanInt (sign ++ (digits ++ rest)) =
      .value id rest := by
  rcases h.signs with rfl | rfl | rfl
  · exact ⟨_, scanInt_signed false h.number hEnd⟩
  · have hPlus : isSpace 43 = false := by decide
    have hMinus : (43 : UInt8) ≠ 45 := by decide
    refine ⟨storeInt (digitsValue digits), ?_⟩
    unfold scanInt
    rw [List.singleton_append, skipSpace_word hPlus]
    dsimp only
    rw [if_neg hMinus, if_pos rfl,
      scanDigits_number false h.number hEnd]
    rfl
  · exact ⟨_, scanInt_signed true h.number hEnd⟩

/- An item is read as one, and no more than it. -/
theorem Item.scan
    (h : Item spaces sign digits gap word rest) :
    ∃ id,
      scanIntWord
          (spaces ++
            (sign ++ (digits ++ (gap ++ (word ++ rest))))) =
        .both id word rest := by
  have hEnd :
      ∀ c ∈ (gap ++ (word ++ rest)).head?,
        isDigit c = false := by
    have hSome : gap ++ word ≠ [] := by
      simp [h.whole.some]
    rw [← List.append_assoc, List.head?_append,
      List.head?_eq_some_head hSome]
    have hApart := h.apart
    rw [List.head?_eq_some_head hSome] at hApart
    exact hApart
  have hSkip :
      scanWord (gap ++ (word ++ rest)) =
        scanWord (word ++ rest) := by
    unfold scanWord skipSpace
    rw [List.dropWhile_append_of_pos h.between]
  rcases scanInt_numeral h.numeral hEnd with ⟨id, hInt⟩
  refine ⟨id, ?_⟩
  rw [scanIntWord_spaces h.leading]
  unfold scanIntWord
  rw [hInt]
  dsimp only
  rw [hSkip, scanWord_word h.whole h.ends]

/- A lone sign is taken off, and nothing is stored. -/
theorem LoneSign.scan
    (h : LoneSign spaces c rest) :
    scanIntWord (spaces ++ c :: rest) = .none rest := by
  have hDigits :
      ∀ negative, scanDigits negative rest =
        .mismatch rest := by
    intro negative
    unfold scanDigits
    cases rest with
    | nil => rfl
    | cons d rest =>
        rw [List.takeWhile_cons_of_neg
          (by simpa using h.apart d rfl)]
  have hPlus : isSpace 43 = false := by decide
  have hMinus : isSpace 45 = false := by decide
  have hApart : (43 : UInt8) ≠ 45 := by decide
  rw [scanIntWord_spaces h.leading]
  unfold scanIntWord scanInt
  rcases h.sign with rfl | rfl
  · rw [skipSpace_word hPlus]
    dsimp only
    rw [if_neg hApart, if_pos rfl, hDigits]
  · rw [skipSpace_word hMinus]
    dsimp only
    rw [if_pos rfl, hDigits]

theorem isDigit_of_isSpace
    (h : isSpace c = true) :
    isDigit c = false := by
  have hZero : (48 : UInt8).toNat = 48 := rfl
  have hReturn : (13 : UInt8).toNat = 13 := rfl
  have hBlank : (32 : UInt8).toNat = 32 := rfl
  have hLow : c.toNat < 48 := by
    simp only [isSpace, Bool.or_eq_true, Bool.and_eq_true,
      beq_iff_eq, decide_eq_true_eq, UInt8.le_iff_toNat_le]
      at h
    rcases h with rfl | ⟨_, hHigh⟩
    · omega
    · omega
  simp only [isDigit, Bool.and_eq_false_iff,
    decide_eq_false_iff_not, UInt8.le_iff_toNat_le]
  omega

/- A number with no word behind it. -/
theorem scanIntWord_numeral
    (h : Numeral sign digits)
    (hSpaces : ∀ c ∈ spaces, isSpace c = true)
    (hBlank : ∀ c ∈ rest, isSpace c = true) :
    ∃ id, scanIntWord (spaces ++ (sign ++ (digits ++ rest))) =
      .int id [] := by
  have hEnd : ∀ c ∈ rest.head?, isDigit c = false :=
    fun c hc =>
      isDigit_of_isSpace (hBlank c (List.mem_of_mem_head? hc))
  have hWord : scanWord rest = .eof := by
    have hSkip : skipSpace rest = [] :=
      List.dropWhile_eq_nil_iff.mpr hBlank
    unfold scanWord
    rw [hSkip]
  rcases scanInt_numeral h hEnd with ⟨id, hInt⟩
  refine ⟨id, ?_⟩
  rw [scanIntWord_spaces hSpaces]
  unfold scanIntWord
  rw [hInt]
  dsimp only
  rw [hWord]

theorem WordEnd.append
    (h : WordEnd rest)
    (hTail : WordEnd tail) :
    WordEnd (rest ++ tail) := by
  cases rest with
  | nil => exact hTail
  | cons c rest => exact h

/- What stands behind the items may go on. -/
theorem Items.append
    {β : Type}
    {f : Text → β → β}
    {p : β → Prop}
    {b b' : β}
    {text : Text}
    (h : Items f p b text b' rest)
    (hTail : WordEnd tail) :
    Items f p b (text ++ tail) b' (rest ++ tail) := by
  induction h with
  | nil b text => exact .nil b (text ++ tail)
  | sign b b' spaces rest rest' c hSign hMeets _ ih =>
      have hMore : LoneSign spaces c (rest ++ tail) := by
        refine { hSign with apart := ?_ }
        cases rest with
        | nil =>
            exact fun d hd => isDigit_of_isSpace (hTail d hd)
        | cons d rest => exact hSign.apart
      have hSame := Items.sign b b' spaces _ _ c hMore hMeets ih
      simpa only [List.append_assoc, List.cons_append]
        using hSame
  | item b b' spaces sign digits gap word rest rest' hItem
      hMeets _ ih =>
      have hMore :
          Item spaces sign digits gap word (rest ++ tail) :=
        { hItem with ends := hItem.ends.append hTail }
      have hSame :=
        Items.item b b' spaces sign digits gap word _ _ hMore
          hMeets ih
      simpa only [List.append_assoc] using hSame

/- The byte that starts no number is given back. -/
theorem NoNumber.scan
    (h : NoNumber spaces sign c)
    (rest : Text) :
    scanIntWord (spaces ++ (sign ++ c :: rest)) =
      .none (c :: rest) := by
  have hNone : (c :: rest).takeWhile isDigit = [] := by
    simp [h.digit]
  have hDigits :
      ∀ negative, scanDigits negative (c :: rest) =
        .mismatch (c :: rest) := by
    intro negative
    unfold scanDigits
    rw [hNone]
  have hPlus : isSpace 43 = false := by decide
  have hMinus : isSpace 45 = false := by decide
  have hApart : (43 : UInt8) ≠ 45 := by decide
  rw [scanIntWord_spaces h.leading]
  rcases h.signs with rfl | rfl | rfl
  · exact scanIntWord_mismatch h.letter h.digit h.minus
      h.plus rest
  · unfold scanIntWord scanInt
    rw [List.singleton_append, skipSpace_word hPlus]
    dsimp only
    rw [if_neg hApart, if_pos rfl, hDigits]
  · unfold scanIntWord scanInt
    rw [List.singleton_append, skipSpace_word hMinus]
    dsimp only
    rw [if_pos rfl, hDigits]

end

end Scanf

------------------------------------------------------------
-- Reading What Was Printed
------------------------------------------------------------

namespace Scanf

/- The decimal digits of a number. -/
def printDigits
    (n : Nat) : Text :=
  (Nat.toDigits 10 n).map (fun c => UInt8.ofNat c.toNat)

section

variable {n : Nat} {value id : Int} {input rest word : Text}

theorem printInt_eq
    (value : Int) :
    printInt value =
      signed (decide (value < 0))
        (printDigits value.natAbs) := by
  unfold printInt signed
  by_cases hNegative : value < 0
  · simp only [hNegative, if_true, decide_true]
    rfl
  · simp only [hNegative, if_false, decide_false,
      Bool.false_eq_true]
    rfl

/- A decimal digit is its own byte. -/
theorem toNat_digit
    {c : Char}
    (h : c.isDigit = true) :
    (UInt8.ofNat c.toNat).toNat = c.toNat ∧
      48 ≤ c.toNat ∧ c.toNat ≤ 57 := by
  have hRange : 48 ≤ c.toNat ∧ c.toNat ≤ 57 := by
    simp only [Char.isDigit, Bool.and_eq_true,
      decide_eq_true_eq] at h
    exact h
  refine ⟨?_, hRange⟩
  rw [UInt8.toNat_ofNat']
  omega

theorem number_printDigits
    (n : Nat) :
    Number (printDigits n) where
  some := by
    unfold printDigits
    rw [ne_eq, List.map_eq_nil_iff]
    exact Nat.toDigits_ne_nil
  all := by
    intro c hc
    rcases List.mem_map.mp hc with ⟨d, hd, rfl⟩
    have hDigit :=
      toNat_digit
        (Nat.isDigit_of_mem_toDigits (by decide)
          (Nat.le_refl 10) hd)
    have hLow : (48 : UInt8).toNat = 48 := rfl
    have hHigh : (57 : UInt8).toNat = 57 := rfl
    simp only [isDigit, Bool.and_eq_true,
      decide_eq_true_eq, UInt8.le_iff_toNat_le]
    omega

/- The digits stand for the number they were printed from. -/
theorem digitsValue_printDigits
    (n : Nat) :
    digitsValue (printDigits n) = n := by
  have hFold :
      ∀ (digits : List Char) (start : Nat),
        (∀ c ∈ digits, c.isDigit = true) →
          (digits.map fun c => UInt8.ofNat c.toNat).foldl
              (fun n c => 10 * n + (c.toNat - 48)) start =
            Nat.ofDigitChars 10 digits start := by
    intro digits
    induction digits with
    | nil => exact fun _ _ => (Nat.ofDigitChars_nil).symm
    | cons c digits ih =>
        intro start hAll
        rw [List.forall_mem_cons] at hAll
        rw [List.map_cons, List.foldl_cons,
          Nat.ofDigitChars_cons, (toNat_digit hAll.1).1]
        exact ih _ hAll.2
  have hAll :
      ∀ c ∈ Nat.toDigits 10 n, c.isDigit = true :=
    fun c hc =>
      Nat.isDigit_of_mem_toDigits (by decide)
        (Nat.le_refl 10) hc
  calc
    digitsValue (printDigits n) =
        Nat.ofDigitChars 10 (Nat.toDigits 10 n) 0 :=
      hFold _ 0 hAll
    _ = n := Nat.ofDigitChars_ten_toDigits

/- What `%d` stores is an `int`. -/
theorem storeInt_range
    (value : Int) :
    -2 ^ 31 ≤ storeInt value ∧ storeInt value < 2 ^ 31 := by
  unfold storeInt
  rw [Int.bmod_def]
  omega

theorem scanDigits_range
    {negative : Bool}
    (h : scanDigits negative input = .value id rest) :
    storeInt id = id := by
  unfold scanDigits at h
  split at h
  · cases h
  · simp only [Conversion.value.injEq] at h
    rw [← h.1]
    exact storeInt_eq_iff.mpr (storeInt_range _)

theorem scanInt_range
    (h : scanInt input = .value id rest) :
    storeInt id = id := by
  unfold scanInt at h
  split at h
  · cases h
  · split at h
    · exact scanDigits_range h
    split at h
    · exact scanDigits_range h
    · exact scanDigits_range h

/- So is the number of an item. -/
theorem scanIntWord_range
    (h :
      scanIntWord input = .int id rest ∨
        ∃ word, scanIntWord input = .both id word rest) :
    storeInt id = id := by
  unfold scanIntWord at h
  cases hInt : scanInt input with
  | eof => simp [hInt] at h
  | mismatch left => simp [hInt] at h
  | value newId left =>
      have hSame : newId = id := by
        rw [hInt] at h
        rcases scanWord_cases left with
          hWord | ⟨_, _, hWord⟩
        · simp only [hWord, IntWord.int.injEq, reduceCtorEq,
            exists_false, or_false] at h
          exact h.1
        · simp only [hWord, IntWord.both.injEq, reduceCtorEq,
            false_or] at h
          rcases h with ⟨_, hSame, _⟩
          exact hSame
      rw [← hSame]
      exact scanInt_range hInt

end

end Scanf

------------------------------------------------------------
-- Hexadecimal Text
------------------------------------------------------------

namespace Scanf

/- The lower-case digit of a value below sixteen. -/
def hexDigit
    (n : Nat) : UInt8 :=
  if n < 10 then UInt8.ofNat (48 + n)
  else UInt8.ofNat (87 + n)

/- `sprintf("%.2x")` of every byte, in order. -/
def printHex
    (bytes : List UInt8) : Text :=
  bytes.flatMap fun b =>
    [hexDigit (b.toNat / 16), hexDigit (b.toNat % 16)]

/- `toupper` in the C locale. -/
def toUpper
    (c : UInt8) : UInt8 :=
  if 97 ≤ c && c ≤ 122 then c - 32 else c

section

variable {bytes : List UInt8}

/- Two digits a byte. -/
theorem length_printHex
    (bytes : List UInt8) :
    (printHex bytes).length = 2 * bytes.length := by
  induction bytes with
  | nil => rfl
  | cons b bytes ih =>
      unfold printHex at ih ⊢
      rw [List.flatMap_cons, List.length_append, ih]
      simp only [List.length_cons, List.length_nil]
      omega

theorem getD_printHex
    {i : Nat}
    (hi : i < bytes.length) :
    (printHex bytes).getD (2 * i) 0 =
        hexDigit (bytes[i].toNat / 16) ∧
      (printHex bytes).getD (2 * i + 1) 0 =
        hexDigit (bytes[i].toNat % 16) := by
  induction bytes generalizing i with
  | nil => cases hi
  | cons b bytes ih =>
      cases i with
      | zero => exact ⟨rfl, rfl⟩
      | succ i => exact ih (Nat.lt_of_succ_lt_succ hi)

theorem mem_printHex
    {c : UInt8}
    (h : c ∈ printHex bytes) :
    ∃ k, k < 16 ∧ c = hexDigit k := by
  rcases List.mem_flatMap.mp h with ⟨b, -, hDigit⟩
  have hByte := b.toNat_lt
  simp only [List.mem_cons, List.not_mem_nil, or_false]
    at hDigit
  rcases hDigit with hHigh | hLow
  · exact ⟨_, by omega, hHigh⟩
  · exact ⟨_, by omega, hLow⟩

/- A byte from its two halves. -/
theorem byte_of_halves
    (b : UInt8) :
    UInt8.ofNat (b.toNat / 16) <<< 4 |||
        UInt8.ofNat (b.toNat % 16) =
      b := by
  have hAll :
      ∀ k : Fin 256,
        UInt8.ofNat (k.val / 16) <<< 4 |||
            UInt8.ofNat (k.val % 16) =
          UInt8.ofNat k.val := by
    decide +kernel
  have hByte := hAll ⟨b.toNat, b.toNat_lt⟩
  rwa [UInt8.ofNat_toNat] at hByte

end

end Scanf

------------------------------------------------------------
-- Words of a Limited Length
------------------------------------------------------------

namespace Scanf

/- The `%<width>s` conversion. -/
def scanWordMax
    (width : Nat)
    (input : Text) : Conversion Text :=
  match skipSpace input with
  | [] => .eof
  | c :: rest =>
      let word :=
        ((c :: rest).takeWhile
          (fun d => !isSpace d)).take width
      .value word ((c :: rest).drop word.length)

/- A word that ends where it has to, or at its width. -/
structure WordCut
    (width : Nat)
    (word rest : Text) : Prop where
  whole : Word word
  fits : word.length ≤ width
  ends : word.length = width ∨ WordEnd rest

section

variable {width : Nat} {literal input gap word rest : Text}

theorem scanLiteral_iff :
    scanLiteral literal input = .value () rest ↔
      input = literal ++ rest := by
  fun_induction scanLiteral literal input with
  | case1 input => simp
  | case2 l literal => simp
  | case3 literal c input ih => simp [ih]
  | case4 l literal c input hOther =>
      have hNot : ¬ c = l := fun h => hOther h.symm
      simp [hNot]

/- What is left after white space does not start with any. -/
theorem skipSpace_head
    {c : UInt8}
    (hSkip : skipSpace input = c :: rest) :
    isSpace c = false := by
  have hHead := List.head?_dropWhile_not isSpace input
  unfold skipSpace at hSkip
  rw [hSkip] at hHead
  simpa using hHead

theorem skipSpace_append
    (hGap : ∀ c ∈ gap, isSpace c = true)
    (hEnd : ∀ c ∈ rest.head?, isSpace c = false) :
    skipSpace (gap ++ rest) = rest :=
  dropWhile_append_of_all hGap hEnd

/- The longest word at the front, cut at the width. -/
theorem wordCut_front
    {c : UInt8}
    (hWidth : 0 < width)
    (hFirst : isSpace c = false)
    (hWord :
      ((c :: input).takeWhile (fun d => !isSpace d)).take
        width = word) :
    ∃ rest, c :: input = word ++ rest ∧
      WordCut width word rest := by
  have hPrefix : word <+: c :: input := by
    rw [← hWord]
    exact (List.take_prefix _ _).trans
      (List.takeWhile_prefix _)
  rcases hPrefix with ⟨rest, hText⟩
  refine ⟨rest, hText.symm, ⟨?_, ?_⟩, ?_, ?_⟩
  · rcases Nat.exists_eq_succ_of_ne_zero hWidth.ne' with
      ⟨k, rfl⟩
    rw [← hWord, List.takeWhile_cons_of_pos (by simp [hFirst]),
      List.take_succ_cons]
    exact List.cons_ne_nil _ _
  · intro d hd
    rw [← hWord] at hd
    simpa using List.mem_takeWhile_imp (List.mem_of_mem_take hd)
  · rw [← hWord]
    exact List.length_take_le _ _
  · by_cases hLong :
        width ≤
          ((c :: input).takeWhile
            (fun d => !isSpace d)).length
    · left
      rw [← hWord, List.length_take, Nat.min_eq_left hLong]
    · -- the word is not cut, so a space or nothing follows
      right
      rw [List.take_of_length_le (by omega)] at hWord
      have hDrop :
          (c :: input).dropWhile (fun d => !isSpace d) =
            rest := by
        have hBoth := @List.takeWhile_append_dropWhile _
          (fun d => !isSpace d) (c :: input)
        rw [hWord] at hBoth
        exact List.append_cancel_left (hBoth.trans hText.symm)
      have hHead := List.head?_dropWhile_not
        (fun d => !isSpace d) (c :: input)
      rw [hDrop] at hHead
      intro d hd
      rw [Option.mem_def] at hd
      rw [hd] at hHead
      simpa using hHead

theorem WordCut.front
    (h : WordCut width word rest) :
    ((word ++ rest).takeWhile (fun d => !isSpace d)).take
      width = word := by
  have hAll : ∀ d ∈ word, (!isSpace d) = true := by
    intro d hd
    simp [h.whole.all d hd]
  rcases h.ends with hFull | hEnd
  · rw [List.takeWhile_append_of_pos hAll]
    exact List.take_left' hFull
  · rw [takeWhile_append_of_all hAll]
    · exact List.take_of_length_le h.fits
    · intro d hd
      simp [hEnd d hd]

/- The words that `%<width>s` reads. -/
theorem scanWordMax_iff
    (hWidth : 0 < width) :
    scanWordMax width input = .value word rest ↔
      ∃ gap, input = gap ++ (word ++ rest) ∧
        (∀ c ∈ gap, isSpace c = true) ∧
          WordCut width word rest := by
  unfold scanWordMax
  constructor
  · intro hScan
    split at hScan
    · cases hScan
    next c left hSkip =>
    simp only [Conversion.value.injEq] at hScan
    rcases hScan with ⟨hWord, hRest⟩
    rcases wordCut_front hWidth (skipSpace_head hSkip) hWord
      with ⟨tail, hText, hCut⟩
    have hIs : tail = rest := by
      rw [← hRest, hWord, hText, List.drop_left]
    subst hIs
    refine ⟨input.takeWhile isSpace, ?_, ?_, hCut⟩
    · rw [← hText, ← hSkip]
      exact List.takeWhile_append_dropWhile.symm
    · exact fun d hd => List.mem_takeWhile_imp hd
  · rintro ⟨gap, rfl, hGap, hCut⟩
    cases word with
    | nil => exact absurd rfl hCut.whole.some
    | cons c word =>
        have hSkip :
            skipSpace (gap ++ (c :: word ++ rest)) =
              c :: (word ++ rest) := by
          apply skipSpace_append hGap
          intro d hd
          cases hd
          exact hCut.whole.all c List.mem_cons_self
        have hFront := hCut.front
        rw [List.cons_append] at hFront
        rw [hSkip]
        dsimp only
        rw [hFront]
        simp

theorem scanWordMax_cases
    (width : Nat)
    (input : Text) :
    scanWordMax width input = .eof ∨
      ∃ word rest,
        scanWordMax width input = .value word rest := by
  unfold scanWordMax
  split
  · exact .inl rfl
  · exact .inr ⟨_, _, rfl⟩

end

end Scanf

------------------------------------------------------------
-- Two Numbers Around a Word
------------------------------------------------------------

namespace Scanf

/-
  The result of `sscanf(s, "%d %s %d", &id, buf, &port)`,
  whatever is behind it: `EOF`, or the items stored.
-/
inductive IntWordInt where
  | eof
  | none
  | int (id : Int)
  | both (id : Int) (word : Text)
  | all (id : Int) (word : Text) (port : Int)
deriving DecidableEq

/- The format `"%d %s %d"`. -/
def scanIntWordInt
    (input : Text) : IntWordInt :=
  match scanIntWord input with
  | .eof => .eof
  | .none _ => .none
  | .int id _ => .int id
  | .both id word rest =>
      match scanInt rest with
      | .value port _ => .all id word port
      | _ => .both id word

/- `atoi`: what is no number is 0. -/
def atoi
    (input : Text) : Int :=
  match scanInt input with
  | .value value _ => value
  | _ => 0

section

variable {id port value : Int} {input word rest : Text}

/- The digits and the sign of a number stand for it. -/
theorem signed_value
    (value : Int) :
    (if decide (value < 0) = true then
        -(digitsValue (printDigits value.natAbs) : Int)
      else digitsValue (printDigits value.natAbs)) = value := by
  rw [digitsValue_printDigits]
  by_cases hNegative : value < 0
  · rw [if_pos (decide_eq_true hNegative)]
    omega
  · rw [if_neg (by simpa using hNegative)]
    omega

/- A printed number is digits and maybe a sign. -/
theorem mem_printInt
    {c : UInt8}
    (h : c ∈ printInt value) :
    c = 45 ∨ isDigit c = true := by
  have hDigits := (number_printDigits value.natAbs).all
  rw [printInt_eq] at h
  unfold signed at h
  split at h
  · rcases List.mem_cons.mp h with hSign | hDigit
    · exact .inl hSign
    · exact .inr (hDigits c hDigit)
  · exact .inr (hDigits c h)

/- A printed number is read as it was. -/
theorem scanInt_printed
    (hStored : storeInt value = value)
    (hEnd : ∀ c ∈ rest.head?, isDigit c = false) :
    scanInt (printInt value ++ rest) = .value value rest := by
  rw [printInt_eq,
    scanInt_signed _ (number_printDigits _) hEnd,
    signed_value, hStored]

/- A line of two numbers around a word is read as it was. -/
theorem scanIntWordInt_printed
    (hId : storeInt id = id)
    (hWord : Word word)
    (hPort : storeInt port = port)
    (hEnd : ∀ c ∈ rest.head?, isDigit c = false) :
    scanIntWordInt
        (printInt id ++ 32 ::
          (word ++ 32 :: (printInt port ++ rest))) =
      .all id word port := by
  have hBlank :
      WordEnd (32 :: (printInt port ++ rest)) := by
    intro c hc
    rw [← Option.some.inj hc]
    decide
  have hPair :=
    scanIntWord_pair (decide (id < 0))
      (number_printDigits id.natAbs) hWord hBlank
  rw [← printInt_eq, signed_value, hId] at hPair
  have hSkip :
      scanInt (32 :: (printInt port ++ rest)) =
        scanInt (printInt port ++ rest) := by
    have hSpace : isSpace 32 = true := by decide
    unfold scanInt
    rw [skipSpace_space hSpace]
  unfold scanIntWordInt
  rw [hPair]
  dsimp only
  rw [hSkip, scanInt_printed hPort hEnd]

/- A word that is stored is shorter than the text. -/
theorem length_of_scanIntWordInt
    (h :
      scanIntWordInt input = .both id word ∨
        scanIntWordInt input = .all id word port) :
    word.length < input.length := by
  have hBoth :
      ∃ rest, scanIntWord input = .both id word rest := by
    unfold scanIntWordInt at h
    split at h
    · simp at h
    · simp at h
    · simp at h
    · next id' word' rest hScan =>
        refine ⟨rest, ?_⟩
        rw [hScan]
        split at h
        · simp only [reduceCtorEq, IntWordInt.all.injEq,
            false_or] at h
          rw [h.1, h.2.1]
        · simp only [reduceCtorEq, IntWordInt.both.injEq,
            or_false] at h
          rw [h.1, h.2]
  rcases hBoth with ⟨rest, hScan⟩
  rcases scanIntWord_both hScan with
    ⟨before, hSome, hInput, -⟩
  have hFirst := List.length_pos_iff.mpr hSome
  rw [hInput, List.length_append, List.length_append]
  omega

/- White space only: nothing is stored. -/
theorem scanIntWordInt_blank
    (hBlank : ∀ c ∈ input, isSpace c = true) :
    scanIntWordInt input = .eof := by
  unfold scanIntWordInt
  rw [scanIntWord_blank hBlank]

end

end Scanf
