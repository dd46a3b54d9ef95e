import Mathlib.Data.List.GetD
import PeerNet.Model.Lookup

/-
  The lines of a chunk file.

  A line is an id, a blank and the 40 hexadecimal digits of
  a hash. `fscanf` reads such a line as one item, wherever
  the text goes on with white space or ends.

  Main declarations:
    * `ChunkLine`
    * `ChunkLine.scan`
    * `ChunkLine.store`
    * `lookupLine`
-/

------------------------------------------------------------
-- Chunk Lines
------------------------------------------------------------

namespace PeerNet

open Scanf

/- `0` to `9`, `a` to `f` or `A` to `F`. -/
def isHexDigit
    (c : UInt8) : Bool :=
  isDigit c || (97 ≤ c && c ≤ 102) || (65 ≤ c && c ≤ 70)

/- The bytes of a line, without its newline. -/
def InLine
    (bytes : Text) : Prop :=
  ∀ c ∈ bytes, c ≠ 10

/- The text of an id and of a hash. -/
structure ChunkLine where
  negative : Bool
  digits : Text
  hex : Text
  number : Number digits
  length : hex.length = 40
  hexDigits : ∀ c ∈ hex, isHexDigit c = true

namespace ChunkLine

/- `<id> <40 hex digits>`. -/
def text
    (line : ChunkLine) : Text :=
  signed line.negative line.digits ++ 32 :: line.hex

/- The id that is written. -/
def id
    (line : ChunkLine) : Int :=
  if line.negative then -(digitsValue line.digits : Int)
  else digitsValue line.digits

/- The id that `%d` stores. -/
def stored
    (line : ChunkLine) : Int :=
  storeInt line.id

/- The hash that the digits stand for. -/
def hash
    (line : ChunkLine) : Hash :=
  hex2binary line.hex

end ChunkLine

/- The first line with a hash. -/
def lookupLine
    (hash : Hash)
    (lines : List ChunkLine) : Option ChunkLine :=
  lines.find? fun line => line.hash = hash

/- Its id, or -1 where no line has the hash. -/
def lookupId
    (hash : Hash)
    (lines : List ChunkLine) : Int :=
  match lookupLine hash lines with
  | none => -1
  | some line => line.id

section

variable {line : ChunkLine} {lines : List ChunkLine}
variable {bytes rest buf : Text} {hash : Hash}

theorem lookupLine_cons
    (hash : Hash)
    (line : ChunkLine)
    (lines : List ChunkLine) :
    lookupLine hash (line :: lines) =
      if line.hash = hash then some line
      else lookupLine hash lines := by
  unfold lookupLine
  rw [List.find?_cons]
  by_cases hSame : line.hash = hash
  · simp [hSame]
  · simp [hSame]

theorem InLine.append
    (hLeft : InLine bytes)
    (hRight : InLine rest) :
    InLine (bytes ++ rest) := by
  intro c hc
  rcases List.mem_append.mp hc with hFirst | hLast
  · exact hLeft c hFirst
  · exact hRight c hLast

theorem isSpace_of_isHexDigit
    {c : UInt8}
    (h : isHexDigit c = true) :
    isSpace c = false := by
  have hDigit : (48 : UInt8).toNat = 48 := rfl
  have hUpper : (65 : UInt8).toNat = 65 := rfl
  have hLower : (97 : UInt8).toNat = 97 := rfl
  have hHigh : (13 : UInt8).toNat = 13 := rfl
  have hBlank : (32 : UInt8).toNat = 32 := rfl
  have hPast : 48 ≤ c.toNat := by
    simp only [isHexDigit, isDigit, Bool.or_eq_true,
      Bool.and_eq_true, decide_eq_true_eq,
      UInt8.le_iff_toNat_le] at h
    omega
  have hOther : c ≠ 32 := by
    rintro rfl
    omega
  simp only [isSpace, Bool.or_eq_false_iff,
    beq_eq_false_iff_ne, Bool.and_eq_false_iff,
    decide_eq_false_iff_not, UInt8.le_iff_toNat_le]
  exact ⟨hOther, .inr (by omega)⟩

namespace ChunkLine

theorem word
    (line : ChunkLine) :
    Word line.hex where
  some := by
    apply List.ne_nil_of_length_pos
    rw [line.length]
    decide
  all := fun c hc =>
    isSpace_of_isHexDigit (line.hexDigits c hc)

/- `fscanf` reads a line as one item. -/
theorem scan
    (line : ChunkLine)
    (hEnd : WordEnd rest) :
    scanIntWord (line.text ++ rest) =
      .both line.stored line.hex rest := by
  have hPair :=
    scanIntWord_pair line.negative line.number line.word hEnd
  unfold text
  rw [List.append_assoc, List.cons_append, hPair]
  rfl

/- The digits fill the buffer. -/
theorem store
    (line : ChunkLine)
    (buf : Bytes) :
    storeWord line.hex buf =
        .ok (line.hex ++ 0 :: buf.drop 41) ∧
      hex2binary (line.hex ++ 0 :: buf.drop 41) =
        line.hash := by
  constructor
  · unfold storeWord
    rw [line.length, if_pos (Nat.le_refl 40)]
  · unfold hash hex2binary
    congr 1
    funext i
    have hFew := i.isLt
    have hLength := line.length
    rw [List.getD_append _ _ _ _ (by omega),
      List.getD_append _ _ _ _ (by omega)]

end ChunkLine

end

/- `0` and forty zeros. -/
def zeroLine : ChunkLine where
  negative := false
  digits := [48]
  hex := List.replicate 40 48
  number := .single rfl
  length := rfl
  hexDigits := by
    intro c hc
    rw [List.eq_of_mem_replicate hc]
    rfl

theorem number_one : Number [49] :=
  .single rfl

end PeerNet
