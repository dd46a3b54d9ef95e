import Mathlib.Data.FinEnum
import Mathlib.Data.Fintype.Defs
import Mathlib.Data.List.TakeWhile
import PeerNet.Lookup.Lines
import PeerNet.Receiver.Links

/-
  Looking a hash up in the has-chunk file.

  `has_chunk` does not read lines. It calls `fscanf` again
  and again, whatever the call stored: the word of an item
  may stand on the next line, a call that stores nothing
  leaves the old text in the buffer, and a byte that starts
  no number is never passed. It finds what the lines say
  where the lines in front of the hash are whole items.

  Main declarations:
    * `parseLine`
    * `textId`
    * `Tidy`
    * `Headed`
    * `has_chunk_of_tidy`
-/

------------------------------------------------------------
-- Lines of a Text
------------------------------------------------------------

namespace PeerNet

open Scanf

/- The line starts with a minus sign. -/
def lineSign
    (line : Text) : Bool :=
  line.head? = some 45

/- What follows the sign, if there is one. -/
def lineBody
    (line : Text) : Text :=
  if lineSign line then line.tail else line

/- The 40 bytes behind the blank. -/
def lineHex
    (line : Text) : Text :=
  ((lineBody line).dropWhile isDigit).tail

/- A line that is an id, a blank and a hash. -/
def parseLine
    (line : Text) : Option ChunkLine :=
  if h :
      (lineBody line).takeWhile isDigit ≠ [] ∧
        ((lineBody line).dropWhile isDigit).head? = some 32 ∧
        (lineHex line).length = 40 ∧
        ∀ c ∈ lineHex line, isHexDigit c = true then
    some
      { negative := lineSign line
        digits := (lineBody line).takeWhile isDigit
        hex := lineHex line
        number :=
          ⟨h.1, fun _ hc => List.mem_takeWhile_imp hc⟩
        length := h.2.2.1
        hexDigits := h.2.2.2 }
  else
    none

/- The lines of a text that are such lines. -/
def textLines
    (text : Text) : List ChunkLine :=
  (text.splitOn 10).filterMap parseLine

/- The id of the first line with the hash, or -1. -/
def textId
    (hash : Hash)
    (text : Text) : Int :=
  lookupId hash (textLines text)

section

variable {line rest digits : Text} {l : ChunkLine}

/- A number, in front of something else. -/
theorem signed_parts
    (negative : Bool)
    (hNumber : Number digits)
    (rest : Text) :
    lineSign (signed negative digits ++ rest) = negative ∧
      lineBody (signed negative digits ++ rest) =
        digits ++ rest := by
  have hSign :
      lineSign (signed negative digits ++ rest) =
        negative := by
    unfold lineSign signed
    cases negative with
    | true => rfl
    | false =>
        rw [if_neg Bool.false_ne_true]
        exact decide_eq_false
          (not_sign_of_number hNumber _)
  refine ⟨hSign, ?_⟩
  unfold lineBody
  rw [hSign]
  unfold signed
  cases negative with
  | true => rfl
  | false => rfl

/- The digits and what is behind them. -/
theorem signed_body
    (negative : Bool)
    (hNumber : Number digits)
    (rest : Text)
    (hEnd : ∀ c ∈ rest.head?, isDigit c = false) :
    (lineBody (signed negative digits ++ rest)).takeWhile
        isDigit = digits ∧
      (lineBody (signed negative digits ++ rest)).dropWhile
        isDigit = rest := by
  rw [(signed_parts negative hNumber rest).2]
  exact ⟨takeWhile_append_of_all hNumber.all hEnd,
    dropWhile_append_of_all hNumber.all hEnd⟩

theorem isDigit_blank
    (word : Text) :
    ∀ c ∈ (32 :: word : Text).head?, isDigit c = false := by
  intro c hc
  rw [← Option.some.inj hc]
  decide

/- Exactly the lines of this form are taken for one. -/
theorem parseLine_eq_some :
    parseLine line = some l ↔ l.text = line := by
  constructor
  · intro hParse
    unfold parseLine at hParse
    split at hParse
    · next h =>
        rw [← Option.some.inj hParse]
        have hBlank :
            (lineBody line).dropWhile isDigit =
              32 :: lineHex line := by
          unfold lineHex
          rw [← List.cons_head?_tail h.2.1]
          rfl
        have hBody :
            (lineBody line).takeWhile isDigit ++
                32 :: lineHex line =
              lineBody line := by
          rw [← hBlank]
          exact List.takeWhile_append_dropWhile
        unfold ChunkLine.text signed
        dsimp only
        cases hSign : lineSign line with
        | true =>
            have hHead : line.head? = some 45 :=
              of_decide_eq_true hSign
            have hTail : lineBody line = line.tail := by
              unfold lineBody
              rw [if_pos hSign]
            rw [if_pos rfl, List.cons_append, hBody, hTail]
            exact List.cons_head?_tail hHead
        | false =>
            have hSame : lineBody line = line := by
              unfold lineBody
              rw [if_neg (by rw [hSign]; decide)]
            rw [if_neg Bool.false_ne_true, hBody, hSame]
    · cases hParse
  · rintro rfl
    have hSign : lineSign l.text = l.negative :=
      (signed_parts l.negative l.number _).1
    have hBody :=
      signed_body l.negative l.number _
        (isDigit_blank l.hex)
    have hTake :
        (lineBody l.text).takeWhile isDigit = l.digits :=
      hBody.1
    have hDrop :
        (lineBody l.text).dropWhile isDigit =
          32 :: l.hex :=
      hBody.2
    have hHex : lineHex l.text = l.hex := by
      unfold lineHex
      rw [hDrop]
      rfl
    unfold parseLine
    rw [dif_pos]
    · congr 1
      cases l
      simp only [ChunkLine.mk.injEq]
      exact ⟨hSign, hTake, hHex⟩
    · rw [hTake, hDrop, hHex]
      exact ⟨l.number.some, rfl, l.length, l.hexDigits⟩

end

end PeerNet

------------------------------------------------------------
-- Calls of `fscanf`
------------------------------------------------------------

namespace PeerNet

open Scanf

/- The buffer with a word in it. -/
def putWord
    (word buf : Text) : Text :=
  word ++ 0 :: buf.drop (word.length + 1)

/- Items whose words leave other hashes in the buffer. -/
abbrev OtherItems
    (hash : Hash) : Bytes → Text → Bytes → Text → Prop :=
  Items putWord fun buf => hex2binary buf ≠ hash

/- No token of the text is longer than the buffer takes. -/
def ShortTokens
    (text : Text) : Prop :=
  ∀ token ∈ text.splitOnP isSpace, token.length ≤ 40

section

variable {hash : Hash} {fuel : Nat}
variable {input rest before text : Text} {buf buf' : Bytes}

/- A word at the head of a text is in its first token. -/
theorem splitOnP_word
    {word : Text}
    (hWord : ∀ c ∈ word, isSpace c = false)
    (after : Text) :
    ∃ token tokens,
      (word ++ after).splitOnP isSpace = token :: tokens ∧
        word.length ≤ token.length := by
  induction word with
  | nil =>
      cases hSplit : after.splitOnP isSpace with
      | nil => exact absurd hSplit (List.splitOnP_ne_nil _ _)
      | cons token tokens =>
          exact ⟨token, tokens, hSplit, Nat.zero_le _⟩
  | cons c word ih =>
      rw [List.forall_mem_cons] at hWord
      rcases ih hWord.2 with ⟨token, tokens, hSplit, hLe⟩
      refine ⟨c :: token, tokens, ?_, Nat.succ_le_succ hLe⟩
      rw [List.cons_append,
        List.splitOnP_cons_eq_if_modifyHead, hWord.1,
        if_neg Bool.false_ne_true, hSplit]
      rfl

/- The tokens behind a byte are no longer than with it. -/
theorem ShortTokens.tail
    {c : UInt8}
    (h : ShortTokens (c :: input)) :
    ShortTokens input := by
  unfold ShortTokens at h ⊢
  rw [List.splitOnP_cons_eq_if_modifyHead] at h
  split at h
  · intro token hMem
    exact h token (List.mem_cons_of_mem _ hMem)
  · cases hSplit : input.splitOnP isSpace with
    | nil => exact absurd hSplit (List.splitOnP_ne_nil _ _)
    | cons first tokens =>
        rw [hSplit, List.modifyHead_cons,
          List.forall_mem_cons] at h
        rw [List.forall_mem_cons]
        have hFirst := h.1
        rw [List.length_cons] at hFirst
        exact ⟨by omega, h.2⟩

theorem ShortTokens.behind
    (h : ShortTokens input)
    (hInput : input = before ++ rest) :
    ShortTokens rest := by
  subst hInput
  induction before with
  | nil => exact h
  | cons c before ih => exact ih h.tail

/- So no word is longer than the buffer takes. -/
theorem ShortTokens.word
    {word after : Text}
    (h : ShortTokens input)
    (hInput : input = before ++ (word ++ after))
    (hWord : ∀ c ∈ word, isSpace c = false) :
    word.length ≤ 40 := by
  rcases splitOnP_word hWord after with
    ⟨token, tokens, hSplit, hLe⟩
  have hToken :=
    h.behind hInput token
      (by rw [hSplit]; exact List.mem_cons_self)
  omega

theorem hashEqual_of_ne
    (hOther : hex2binary buf ≠ hash) :
    hashEqual hash (hex2binary buf) = false :=
  decide_eq_false fun h => hOther h.symm

/- White space in front of an item makes no difference. -/
theorem hasChunkLoop_spaces
    (hSpaces : ∀ c ∈ before, isSpace c = true)
    (fuel : Nat)
    (rest : Text)
    (buf : Bytes) :
    hasChunkLoop hash fuel (before ++ rest) (-1) buf =
      hasChunkLoop hash fuel rest (-1) buf := by
  cases fuel with
  | zero => rfl
  | succ fuel =>
      unfold hasChunkLoop
      rw [scanIntWord_spaces hSpaces]

/- An item with another hash is passed. -/
theorem hasChunkLoop_item
    {spaces sign digits gap word : Text}
    (h : Scanf.Item spaces sign digits gap word rest)
    (hFits : word.length ≤ 40)
    (hOther : hex2binary (putWord word buf) ≠ hash)
    (fuel : Nat) :
    hasChunkLoop hash (fuel + 1)
        (spaces ++
          (sign ++ (digits ++ (gap ++ (word ++ rest)))))
        (-1) buf =
      hasChunkLoop hash fuel rest (-1) (putWord word buf) := by
  rcases h.scan with ⟨id, hScan⟩
  have hStore : storeWord word buf = .ok (putWord word buf) :=
    if_pos hFits
  rw [hasChunkLoop, hScan]
  dsimp only
  rw [hStore]
  dsimp only
  rw [hashEqual_of_ne hOther, if_neg Bool.false_ne_true]

/- A lone sign is passed, and the buffer looked at again. -/
theorem hasChunkLoop_sign
    {spaces : Text}
    {c : UInt8}
    (h : LoneSign spaces c rest)
    (hOther : hex2binary buf ≠ hash)
    (fuel : Nat) :
    hasChunkLoop hash (fuel + 1) (spaces ++ c :: rest) (-1)
        buf =
      hasChunkLoop hash fuel rest (-1) buf := by
  rw [hasChunkLoop, h.scan]
  dsimp only
  rw [hashEqual_of_ne hOther, if_neg Bool.false_ne_true]

/- And so are any number of them. -/
theorem hasChunkLoop_items
    (h : OtherItems hash buf text buf' rest)
    (hShort : ShortTokens text)
    (hFuel : text.length < fuel) :
    ShortTokens rest ∧
      ∃ left, rest.length < left ∧
        hasChunkLoop hash fuel text (-1) buf =
          hasChunkLoop hash left rest (-1) buf' := by
  induction h generalizing fuel with
  | nil buf text => exact ⟨hShort, fuel, hFuel, rfl⟩
  | sign buf buf' spaces rest rest' c hSign hOther _ ih =>
      obtain ⟨fuel, rfl⟩ : ∃ more, fuel = more + 1 :=
        ⟨fuel - 1, by omega⟩
      have hTail : ShortTokens rest :=
        (hShort.behind rfl).tail
      have hLeft : rest.length < fuel := by
        simp only [List.length_append, List.length_cons]
          at hFuel
        omega
      rw [hasChunkLoop_sign hSign hOther]
      exact ih hTail hLeft
  | item buf buf' spaces sign digits gap word rest rest'
      hItem hOther _ ih =>
      obtain ⟨fuel, rfl⟩ : ∃ more, fuel = more + 1 :=
        ⟨fuel - 1, by omega⟩
      have hInput :
          spaces ++
              (sign ++ (digits ++ (gap ++ (word ++ rest)))) =
            (spaces ++ (sign ++ (digits ++ gap))) ++
              (word ++ rest) := by
        simp only [List.append_assoc]
      have hFits := hShort.word hInput hItem.whole.all
      have hTail : ShortTokens rest :=
        hShort.behind (hInput.trans (List.append_assoc _ _ _).symm)
      have hSome :=
        List.length_pos_of_ne_nil hItem.whole.some
      have hLeft : rest.length < fuel := by
        simp only [List.length_append] at hFuel
        omega
      rw [hasChunkLoop_item hItem hFits hOther]
      exact ih hTail hLeft

end

end PeerNet

------------------------------------------------------------
-- The Loop Does Not End
------------------------------------------------------------

namespace PeerNet

open Scanf

section

variable {hash : Hash} {input : Text} {buf : Bytes}

/- A call that takes no byte off is made again and again. -/
theorem hasChunkLoop_stuck
    (hScan : scanIntWord input = .none input)
    (hOther : hashEqual hash (hex2binary buf) = false)
    (fuel : Nat) :
    hasChunkLoop hash fuel input (-1) buf =
      .error .hang := by
  induction fuel with
  | zero => rfl
  | succ fuel ih =>
      unfold hasChunkLoop
      rw [hScan]
      dsimp only
      rw [hOther, if_neg Bool.false_ne_true, ih]

/-
  Without a result after as many calls as the text has bytes
  there is none after any number of calls.
-/
theorem hasChunkLoop_hang
    {size : Nat}
    (hSize : input.length ≤ size)
    (hHang :
      hasChunkLoop hash (size + 1) input (-1) buf =
        .error .hang)
    (fuel : Nat) :
    hasChunkLoop hash fuel input (-1) buf =
      .error .hang := by
  induction size generalizing input buf fuel with
  | zero =>
      have hNone : input = [] := by
        apply List.eq_nil_of_length_eq_zero
        omega
      rw [hNone] at hHang
      cases hHang
  | succ size ih =>
      cases fuel with
      | zero => rfl
      | succ fuel =>
      rw [hasChunkLoop] at hHang ⊢
      cases hScan : scanIntWord input with
      | eof =>
          rw [hScan] at hHang
          cases hHang
      | none rest =>
          rw [hScan] at hHang
          dsimp only at hHang ⊢
          rcases scanIntWord_none hScan with
            ⟨before, hInput⟩
          cases hSame : hashEqual hash (hex2binary buf) with
          | true =>
              rw [hSame, if_pos rfl] at hHang
              cases hHang
          | false =>
              rw [hSame, if_neg Bool.false_ne_true]
                at hHang
              rw [if_neg Bool.false_ne_true]
              cases before with
              | nil =>
                  rw [List.nil_append] at hInput
                  rw [← hInput] at hScan ⊢
                  exact hasChunkLoop_stuck hScan hSame fuel
              | cons c before =>
                  apply ih _ hHang
                  rw [hInput] at hSize
                  simp only [List.cons_append,
                    List.length_cons,
                    List.length_append] at hSize
                  omega
      | int id rest =>
          rw [hScan] at hHang
          dsimp only at hHang
          rw [(scanIntWord_int hScan).2] at hHang
          split at hHang
          · cases hHang
          · cases hHang
      | both id word rest =>
          rw [hScan] at hHang
          dsimp only at hHang ⊢
          rcases scanIntWord_both hScan with
            ⟨before, hSome, hInput, _⟩
          cases hStore : storeWord word buf with
          | error f =>
              rw [hStore] at hHang
              exact hHang
          | ok next =>
              rw [hStore] at hHang
              dsimp only at hHang ⊢
              split at hHang
              · cases hHang
              · next hOther =>
                  rw [if_neg hOther]
                  apply ih _ hHang
                  have hPos := List.length_pos_of_ne_nil hSome
                  rw [hInput] at hSize
                  simp only [List.length_append] at hSize
                  omega

end

end PeerNet

------------------------------------------------------------
-- Files of Whole Items
------------------------------------------------------------

namespace PeerNet

open Scanf

/- The line is over: a newline, or the end of the file. -/
def LineEnd
    (rest : Text) : Prop :=
  ∀ c ∈ rest.head?, c = 10

/-
  A file whose lines are white space, whole items and lone
  signs, up to the first line with the hash, with an id that
  an `int` can hold. None of them leaves the hash in the
  buffer, and the last line may be cut off behind a number.
-/
inductive Tidy
    (hash : Hash) : Bytes → Text → Prop
| found (buf : Bytes) (line : ChunkLine) (rest : Text) :
    line.hash = hash →
    -2 ^ 31 ≤ line.id →
    line.id < 2 ^ 31 →
    LineEnd rest →
    Tidy hash buf (line.text ++ rest)
| line (buf buf' : Bytes) (bytes blank rest : Text) :
    InLine bytes →
    OtherItems hash buf bytes buf' blank →
    (∀ c ∈ blank, isSpace c = true) →
    Tidy hash buf' rest →
    Tidy hash buf (bytes ++ 10 :: rest)
| last (buf buf' : Bytes) (bytes blank : Text) :
    InLine bytes →
    OtherItems hash buf bytes buf' blank →
    (∀ c ∈ blank, isSpace c = true) →
    Tidy hash buf bytes
| cut
    (buf buf' : Bytes)
    (bytes spaces sign digits blank after : Text) :
    InLine bytes →
    OtherItems hash buf bytes buf'
      (spaces ++ (sign ++ (digits ++ blank))) →
    (∀ c ∈ spaces, isSpace c = true) →
    Numeral sign digits →
    (∀ c ∈ blank, isSpace c = true) →
    hex2binary buf' ≠ hash →
    LineEnd after →
    (∀ c ∈ after, isSpace c = true) →
    Tidy hash buf (bytes ++ after)

/-
  A file that goes on with no number where an item should
  start, before any item leaves the hash in the buffer. The
  items may go over the ends of lines.
-/
def Headed
    (hash : Hash)
    (buf : Bytes)
    (text : Text) : Prop :=
  ∃ buf' spaces sign c rest,
    OtherItems hash buf text buf'
        (spaces ++ (sign ++ c :: rest)) ∧
      NoNumber spaces sign c ∧ hex2binary buf' ≠ hash

section

variable {hash : Hash} {line : ChunkLine}
variable {bytes rest text : Text} {buf buf' : Bytes}
variable {lines : List ChunkLine} {fuel : Nat}

theorem textLines_line
    (hLine : InLine bytes)
    (rest : Text) :
    textLines (bytes ++ 10 :: rest) =
      (parseLine bytes).toList ++ textLines rest := by
  have hNotMem : (10 : UInt8) ∉ bytes := by
    intro hMem
    exact hLine 10 hMem rfl
  unfold textLines
  rw [List.splitOn_append_cons_self_of_not_mem hNotMem]
  cases hParse : parseLine bytes with
  | none =>
      rw [List.filterMap_cons_none hParse]
      rfl
  | some line =>
      rw [List.filterMap_cons_some hParse]
      rfl

theorem textLines_last
    (hLine : InLine bytes) :
    textLines bytes = (parseLine bytes).toList := by
  have hNotMem : (10 : UInt8) ∉ bytes := by
    intro hMem
    exact hLine 10 hMem rfl
  unfold textLines
  rw [List.splitOn_eq_singleton hNotMem]
  cases hParse : parseLine bytes with
  | none =>
      rw [List.filterMap_cons_none hParse]
      rfl
  | some line =>
      rw [List.filterMap_cons_some hParse]
      rfl

theorem inLine_text
    (line : ChunkLine) :
    InLine line.text := by
  have hDigits : InLine line.digits := by
    intro c hc
    rintro rfl
    cases line.number.all 10 hc
  have hSigned : InLine (signed line.negative line.digits) := by
    unfold signed
    split
    · intro c hc
      rcases List.mem_cons.mp hc with rfl | hDigit
      · decide
      · exact hDigits c hDigit
    · exact hDigits
  apply hSigned.append
  intro c hc
  rintro rfl
  rcases List.mem_cons.mp hc with hBlank | hLetter
  · cases hBlank
  · cases line.word.all 10 hLetter

/- A line that starts with another item has another hash. -/
theorem hash_ne_of_items
    (h : OtherItems hash buf bytes buf' rest)
    (hRest : ∀ id word, scanIntWord rest ≠ .both id word [])
    (hParse : parseLine bytes = some line) :
    line.hash ≠ hash := by
  have hText := parseLine_eq_some.mp hParse
  have hEnd : WordEnd [] := nofun
  have hScan := line.scan hEnd
  rw [List.append_nil, hText] at hScan
  cases h with
  | nil => exact absurd hScan (hRest _ _)
  | sign _ _ spaces rest _ c hSign _ _ =>
      rw [hSign.scan] at hScan
      cases hScan
  | item _ _ spaces sign digits gap word rest _ hItem hOther
      _ =>
      rcases hItem.scan with ⟨id, hBoth⟩
      rw [hBoth] at hScan
      simp only [IntWord.both.injEq] at hScan
      have hBuffer :
          hex2binary (putWord line.hex buf) = line.hash := by
        unfold putWord
        rw [line.length]
        exact (line.store buf).2
      rw [hScan.2.1, hBuffer] at hOther
      exact hOther

theorem LineEnd.wordEnd
    (h : LineEnd rest) :
    WordEnd rest := by
  intro c hc
  rw [h c hc]
  rfl

/- A line of a text is the first of its lines. -/
theorem textLines_found
    (line : ChunkLine)
    (hEnd : LineEnd rest) :
    ∃ lines, textLines (line.text ++ rest) =
      line :: lines := by
  have hLine := inLine_text line
  have hParse : parseLine line.text = some line :=
    parseLine_eq_some.mpr rfl
  cases rest with
  | nil =>
      rw [List.append_nil, textLines_last hLine, hParse]
      exact ⟨[], rfl⟩
  | cons c rest =>
      rw [hEnd c rfl, textLines_line hLine, hParse]
      exact ⟨textLines rest, rfl⟩

/- A line with another hash is not the one that is found. -/
theorem lookupId_skip
    (hOther : ∀ line, parseLine bytes = some line →
      line.hash ≠ hash) :
    lookupId hash ((parseLine bytes).toList ++ lines) =
      lookupId hash lines := by
  cases hParse : parseLine bytes with
  | none => rfl
  | some line =>
      unfold lookupId
      rw [Option.toList_some, List.singleton_append,
        lookupLine_cons, if_neg (hOther line hParse)]

theorem parseLine_blank
    (hBlank : ∀ c ∈ bytes, isSpace c = true) :
    parseLine bytes = none := by
  apply Option.eq_none_iff_forall_ne_some.mpr
  intro line hParse
  rcases List.exists_mem_of_ne_nil _ line.word.some with
    ⟨c, hc⟩
  have hIn : c ∈ bytes := by
    rw [← parseLine_eq_some.mp hParse]
    exact List.mem_append_right _ (List.mem_cons_of_mem _ hc)
  have hSpace := hBlank c hIn
  rw [line.word.all c hc] at hSpace
  cases hSpace

/- White space has no line with a hash. -/
theorem textLines_blank
    (hBlank : ∀ c ∈ text, isSpace c = true) :
    textLines text = [] := by
  generalize hLength : text.length = size
  induction size using Nat.strong_induction_on
    generalizing text with
  | h size ih =>
      by_cases hMem : (10 : UInt8) ∈ text
      · rcases List.eq_append_cons_of_mem hMem with
          ⟨bytes, rest, rfl, hNot⟩
        rw [List.forall_mem_append, List.forall_mem_cons]
          at hBlank
        rw [List.length_append, List.length_cons] at hLength
        rw [textLines_line (fun c hc hIs => hNot (hIs ▸ hc)),
          parseLine_blank hBlank.1,
          ih rest.length (by omega) hBlank.2.2 rfl]
        rfl
      · rw [textLines_last (fun c hc hIs => hMem (hIs ▸ hc)),
          parseLine_blank hBlank]
        rfl

/- Only white space follows the line. -/
theorem textId_end
    (hLine : InLine bytes)
    (hEnd : LineEnd rest)
    (hBlank : ∀ c ∈ rest, isSpace c = true)
    (hOther : ∀ line, parseLine bytes = some line →
      line.hash ≠ hash) :
    textId hash (bytes ++ rest) = -1 := by
  have hLines :
      textLines (bytes ++ rest) =
        (parseLine bytes).toList ++ [] := by
    cases rest with
    | nil =>
        rw [List.append_nil, List.append_nil,
          textLines_last hLine]
    | cons c rest =>
        rw [List.forall_mem_cons] at hBlank
        rw [hEnd c rfl, textLines_line hLine,
          textLines_blank hBlank.2]
  unfold textId
  rw [hLines, lookupId_skip hOther]
  rfl

/- The loop finds what the lines of a tidy file say. -/
theorem Tidy.loop
    (h : Tidy hash buf text)
    (hShort : ShortTokens text)
    (hFuel : text.length < fuel) :
    hasChunkLoop hash fuel text (-1) buf =
      .ok (textId hash text) := by
  have hNewline : isSpace 10 = true := by decide
  induction h generalizing fuel with
  | found buf line rest hSame hLow hHigh hEnd =>
      obtain ⟨fuel, rfl⟩ : ∃ more, fuel = more + 1 :=
        ⟨fuel - 1, by omega⟩
      rcases textLines_found line hEnd with ⟨lines, hLines⟩
      have hId : line.stored = line.id :=
        storeInt_eq_iff.mpr ⟨hLow, hHigh⟩
      have hFirst : textId hash (line.text ++ rest) = line.id := by
        unfold textId lookupId
        rw [hLines, lookupLine_cons, if_pos hSame]
      rw [hFirst, hasChunkLoop, line.scan hEnd.wordEnd]
      dsimp only
      rw [(line.store buf).1]
      dsimp only
      rw [(line.store buf).2, hSame, hId]
      exact if_pos (decide_eq_true rfl)
  | line buf buf' bytes blank rest hLine hItems hBlank _ ih =>
      have hEnd : WordEnd (10 :: rest) := by
        intro c hc
        rw [← Option.some.inj hc]
        exact hNewline
      rcases hasChunkLoop_items (hItems.append hEnd) hShort
          hFuel with ⟨hLeft, left, hLess, hLoop⟩
      have hSpaces :
          ∀ c ∈ blank ++ [10], isSpace c = true := by
        intro c hc
        rcases List.mem_append.mp hc with hFirst | hLast
        · exact hBlank c hFirst
        · rw [List.mem_singleton.mp hLast]
          exact hNewline
      have hApart :
          blank ++ 10 :: rest = (blank ++ [10]) ++ rest := by
        simp
      have hOther : ∀ line, parseLine bytes = some line →
          line.hash ≠ hash := by
        intro line
        apply hash_ne_of_items hItems
        intro id word
        rw [scanIntWord_blank hBlank]
        exact nofun
      rw [hApart, List.length_append] at hLess
      rw [hLoop, hApart, hasChunkLoop_spaces hSpaces,
        ih (hLeft.behind hApart) (by omega)]
      unfold textId
      rw [textLines_line hLine, lookupId_skip hOther]
  | last buf buf' bytes blank hLine hItems hBlank =>
      rcases hasChunkLoop_items hItems hShort hFuel with
        ⟨_, left, hLess, hLoop⟩
      obtain ⟨left, rfl⟩ : ∃ more, left = more + 1 :=
        ⟨left - 1, by omega⟩
      have hEof : scanIntWord blank = .eof :=
        scanIntWord_blank hBlank
      have hOther : ∀ line, parseLine bytes = some line →
          line.hash ≠ hash := by
        intro line
        apply hash_ne_of_items hItems
        intro id word
        rw [hEof]
        exact nofun
      have hText : textId hash (bytes ++ []) = -1 :=
        textId_end hLine nofun nofun hOther
      rw [List.append_nil] at hText
      rw [hLoop, hasChunkLoop, hEof, hText]
  | cut buf buf' bytes spaces sign digits blank after hLine
      hItems hSpaces hNumeral hBlank hOther hEnd hAfter =>
      rcases hasChunkLoop_items (hItems.append hEnd.wordEnd)
          hShort hFuel with ⟨_, left, hLess, hLoop⟩
      have hSome :=
        List.length_pos_of_ne_nil hNumeral.number.some
      simp only [List.length_append] at hLess
      obtain ⟨left, rfl⟩ : ∃ more, left = more + 2 :=
        ⟨left - 2, by omega⟩
      have hSpace : ∀ c ∈ blank ++ after, isSpace c = true := by
        intro c hc
        rcases List.mem_append.mp hc with hFirst | hLast
        · exact hBlank c hFirst
        · exact hAfter c hLast
      rcases scanIntWord_numeral hNumeral hSpaces hSpace with
        ⟨id, hScan⟩
      rw [hLoop, List.append_assoc, List.append_assoc,
        List.append_assoc, hasChunkLoop, hScan]
      dsimp only
      rw [hashEqual_of_ne hOther, if_neg Bool.false_ne_true,
        textId_end hLine hEnd hAfter]
      · rfl
      intro line
      apply hash_ne_of_items hItems
      intro id word
      rcases scanIntWord_numeral hNumeral hSpaces hBlank with
        ⟨_, hNumber⟩
      rw [hNumber]
      exact nofun

/- The loop does not get past the head of a file. -/
theorem Headed.loop
    (h : Headed hash buf text)
    (hShort : ShortTokens text)
    (fuel : Nat) :
    hasChunkLoop hash fuel text (-1) buf = .error .hang := by
  rcases h with
    ⟨buf', spaces, sign, c, rest, hItems, hHead, hOther⟩
  have hSame := hashEqual_of_ne hOther
  have hStuck : scanIntWord (c :: rest) = .none (c :: rest) :=
    scanIntWord_mismatch hHead.letter hHead.digit hHead.minus
      hHead.plus rest
  apply hasChunkLoop_hang (Nat.le_refl text.length)
  rcases hasChunkLoop_items hItems hShort
      (Nat.lt_succ_self _) with ⟨_, left, hLess, hLoop⟩
  obtain ⟨left, rfl⟩ : ∃ more, left = more + 1 :=
    ⟨left - 1, by omega⟩
  rw [hLoop, hasChunkLoop, hHead.scan]
  dsimp only
  rw [hSame, if_neg Bool.false_ne_true,
    hasChunkLoop_stuck hStuck hSame]

end

/-
  In a tidy file the id of the first line with the hash is
  found, or -1 where there is none. In a headed one nothing
  is ever returned, however often `fscanf` is called.
-/
theorem has_chunk_of_tidy
    {files : Files}
    {config : BtConfig}
    {text : Text}
    (env : Env)
    (hash : Hash)
    (hFile : files.content config.hasChunkFile = some text)
    (hShort : ShortTokens text) :
    (Tidy hash (textBuffer env) text →
      hasChunk env files config hash =
        .ok (textId hash text)) ∧
      (Headed hash (textBuffer env) text →
        hasChunk env files config hash = .error .hang ∧
          ∀ fuel,
            hasChunkLoop hash fuel text (-1)
                (textBuffer env) =
              .error .hang) := by
  unfold hasChunk
  rw [hFile]
  refine ⟨fun h => h.loop hShort (Nat.lt_succ_self _), ?_⟩
  exact fun h => ⟨h.loop hShort _, h.loop hShort⟩

/- A file system with a has-chunk file. -/
def hasFiles
    (text : Text) : Files where
  content := fun path =>
    if path = onePeerNode.config.hasChunkFile then some text
    else none
  writable := fun _ => true

theorem hasFiles_content
    (text : Text) :
    (hasFiles text).content
        onePeerNode.config.hasChunkFile =
      some text := by
  simp [hasFiles]

/-
  Two items on a line, an empty line, the chunk and a line
  that starts no number.
-/
def pairedText : Text :=
  [55, 32, 97, 9, 43, 57, 98] ++
    10 :: ([] ++ 10 :: (zeroLine.text ++ [10, 70]))

/- An item of one digit and one letter. -/
theorem item_letters
    {spaces sign gap rest : Text}
    {digit letter : UInt8}
    (hSpaces : ∀ c ∈ spaces, isSpace c = true)
    (hSign : sign = [] ∨ sign = [43] ∨ sign = [45])
    (hDigit : isDigit digit = true)
    (hGap : gap = [] ∨ gap = [32])
    (hLetter :
      isSpace letter = false ∧ isDigit letter = false)
    (hEnd : WordEnd rest) :
    Scanf.Item spaces sign [digit] gap [letter] rest where
  leading := hSpaces
  numeral := ⟨hSign, .single hDigit⟩
  between := by
    rcases hGap with rfl | rfl
    · simp
    · exact List.forall_mem_singleton.mpr rfl
  whole := ⟨List.cons_ne_nil _ _, by simpa using hLetter.1⟩
  apart := by
    rcases hGap with rfl | rfl
    · simpa using hLetter.2
    · intro c hc
      rw [← Option.some.inj hc]
      rfl
  ends := hEnd

theorem pairedText_tidy :
    Tidy (Vector.replicate 20 0) (textBuffer stillEnv)
      pairedText := by
  apply Tidy.line _ (putWord [98] (putWord [97] _)) _ []
  · simp [InLine]
  · apply Items.item _ _ [] [] [55] [32] [97] [9, 43, 57, 98]
    · apply item_letters (by simp) (.inl rfl) rfl (.inr rfl)
        ⟨rfl, rfl⟩
      intro c hc
      rw [← Option.some.inj hc]
      rfl
    · decide
    apply Items.item _ _ [9] [43] [57] [] [98] []
    · apply item_letters (List.forall_mem_singleton.mpr rfl)
        (.inr (.inl rfl)) rfl (.inl rfl) ⟨rfl, rfl⟩
      intro c hc
      cases hc
    · decide
    exact .nil _ _
  · simp
  apply Tidy.line _ _ [] []
  · simp [InLine]
  · exact .nil _ _
  · simp
  apply Tidy.found
  · decide
  · decide
  · decide
  · intro c hc
    exact (Option.some.inj hc).symm

/- `File:` above the line of the chunk. -/
def headedText : Text :=
  [70, 105, 108, 101, 58, 10] ++ (zeroLine.text ++ [10])

theorem headedText_headed :
    Headed (Vector.replicate 20 0) (textBuffer stillEnv)
      headedText :=
  ⟨_, [], [], 70, _, .nil _ _,
    ⟨by simp, .inl rfl, by decide, by decide, by decide,
      by decide⟩, by decide⟩

theorem has_chunk_of_tidy_zeros :
    hasChunk stillEnv (hasFiles pairedText)
          onePeerNode.config (Vector.replicate 20 0) =
        .ok (textId (Vector.replicate 20 0) pairedText) ∧
      hasChunk stillEnv (hasFiles headedText)
          onePeerNode.config (Vector.replicate 20 0) =
        .error .hang :=
  ⟨(has_chunk_of_tidy stillEnv (Vector.replicate 20 0)
      (hasFiles_content pairedText)
      (by unfold ShortTokens; decide)).1 pairedText_tidy,
    ((has_chunk_of_tidy stillEnv (Vector.replicate 20 0)
      (hasFiles_content headedText)
      (by unfold ShortTokens; decide)).2
        headedText_headed).1⟩

/- The loop does not get to the line. -/
theorem head_never_passed :
    ¬ ∀ (env : Env) (files : Files) (config : BtConfig)
        (text : Text) (hash : Hash),
      files.content config.hasChunkFile = some text →
        ShortTokens text →
          hasChunk env files config hash =
            .ok (textId hash text) := by
  intro hClaim
  have hFound :=
    hClaim stillEnv (hasFiles headedText)
      onePeerNode.config headedText (Vector.replicate 20 0)
      (hasFiles_content _) (by unfold ShortTokens; decide)
  have hHang :
      hasChunk stillEnv (hasFiles headedText)
          onePeerNode.config (Vector.replicate 20 0) =
        .error .hang := by
    unfold hasChunk
    rw [hasFiles_content]
    exact headedText_headed.loop
      (by unfold ShortTokens; decide) _
  rw [hHang] at hFound
  cases hFound

end PeerNet
