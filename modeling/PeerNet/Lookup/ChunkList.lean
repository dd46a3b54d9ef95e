import PeerNet.Lookup.Master

/-
  Files of chunk lines.

  A has-chunk file and the chunk list of a GET consist of
  chunk lines from their first byte on. `has_chunk` looks at
  the lines one after the other, as long as what follows a
  line does not belong to its last word.

  Main declarations:
    * `listText`
    * `hasChunkLoop_lines`
    * `hasChunk_list`
    * `masterChunk_range`
-/

------------------------------------------------------------
-- Chunk Lists
------------------------------------------------------------

namespace PeerNet

open Scanf

/-
  A file of chunk lines, and whether its last line ends with
  a newline.
-/
def listText
    (ended : Bool) :
    List ChunkLine → Text
| [] => []
| line :: lines => line.text ++ linesText ended lines

/- The id that is stored for the first line with a hash. -/
def listedId
    (hash : Hash)
    (lines : List ChunkLine) : Int :=
  match lookupLine hash lines with
  | none => -1
  | some line => line.stored

section

variable {hash : Hash} {lines more : List ChunkLine}
variable {fuel : Nat} {id : Int} {buf rest : Text}

theorem linesText_append
    (ended : Bool)
    (lines more : List ChunkLine) :
    linesText ended (lines ++ more) =
      linesText false lines ++ linesText ended more := by
  induction lines with
  | nil => rfl
  | cons line lines ih =>
      rw [List.cons_append, linesText, linesText, ih]
      simp only [List.cons_append, List.append_assoc]

theorem linesText_ended
    (lines : List ChunkLine) :
    linesText true lines = linesText false lines ++ [10] := by
  have hAppend := linesText_append true lines []
  rwa [List.append_nil] at hAppend

theorem wordEnd_lines
    (lines : List ChunkLine)
    (hEnd : WordEnd rest) :
    WordEnd (linesText false lines ++ rest) := by
  cases lines with
  | nil => exact hEnd
  | cons line lines =>
      intro c hc
      rw [← Option.some.inj hc]
      rfl

/- The lines of a list, each behind a newline. -/
theorem listText_cons
    (ended : Bool)
    (hSome : lines ≠ []) :
    10 :: listText ended lines = linesText ended lines := by
  cases lines with
  | nil => exact absurd rfl hSome
  | cons line lines => rfl

theorem length_listText
    (ended : Bool)
    (lines : List ChunkLine) :
    lines.length ≤ (listText ended lines).length := by
  cases lines with
  | nil => exact Nat.zero_le _
  | cons line lines =>
      have hFew := length_linesText ended lines
      simp only [listText, ChunkLine.text, List.length_cons,
        List.length_append]
      omega

theorem listedId_append
    (hash : Hash)
    (lines more : List ChunkLine) :
    listedId hash (lines ++ more) =
      match lookupLine hash lines with
      | some line => line.stored
      | none => listedId hash more := by
  unfold listedId lookupLine
  rw [List.find?_append]
  cases List.find? (fun line => line.hash = hash) lines <;>
    rfl

/- `has_chunk` skips white space. -/
theorem hasChunkLoop_space
    (hash : Hash)
    (fuel : Nat)
    (id : Int)
    (buf input : Text) :
    hasChunkLoop hash fuel (10 :: input) id buf =
      hasChunkLoop hash fuel input id buf := by
  have hSpace : isSpace 10 = true := by decide
  cases fuel with
  | zero => rfl
  | succ fuel =>
      unfold hasChunkLoop
      rw [scanIntWord_space hSpace]

/- The loop over lines, and on to what follows them. -/
theorem hasChunkLoop_lines
    (hash : Hash)
    (fuel : Nat)
    (lines : List ChunkLine)
    (buf : Text)
    (hEnd : WordEnd rest) :
    ∃ buf',
      hasChunkLoop hash (lines.length + fuel)
          (linesText false lines ++ rest) (-1) buf =
        match lookupLine hash lines with
        | some line => .ok line.stored
        | none => hasChunkLoop hash fuel rest (-1) buf' := by
  induction lines generalizing buf with
  | nil =>
      refine ⟨buf, ?_⟩
      rw [List.length_nil, Nat.zero_add]
      rfl
  | cons line lines ih =>
      have hStore := line.store buf
      have hNext := wordEnd_lines lines hEnd
      rcases ih (line.hex ++ 0 :: buf.drop 41) with
        ⟨buf', hLoop⟩
      refine ⟨buf', ?_⟩
      have hLength :
          (line :: lines).length + fuel =
            (lines.length + fuel) + 1 := by
        rw [List.length_cons]
        omega
      rw [hLength, linesText, List.cons_append,
        hasChunkLoop_space, List.append_assoc, hasChunkLoop,
        line.scan hNext]
      dsimp only
      rw [hStore.1]
      dsimp only
      rw [hStore.2]
      rw [lookupLine_cons]
      unfold hashEqual
      by_cases hSame : line.hash = hash
      · rw [if_pos hSame, if_pos (decide_eq_true hSame.symm)]
      · have hOther : ¬ hash = line.hash :=
          fun h => hSame h.symm
        rw [if_neg hSame, if_neg (by simpa using hOther)]
        exact hLoop

/- `has_chunk` on a list. -/
theorem hasChunk_list
    {files : Files}
    {config : BtConfig}
    {ended : Bool}
    (env : Env)
    (hash : Hash)
    (hFile :
      files.content config.hasChunkFile =
        some (listText ended lines)) :
    hasChunk env files config hash =
      .ok (listedId hash lines) := by
  have hFew := length_listText ended lines
  have hFuel :
      (listText ended lines).length + 1 =
        lines.length +
          ((listText ended lines).length - lines.length +
            1) := by
    omega
  have hNewline : WordEnd [10] := by
    intro c hc
    rw [← Option.some.inj hc]
    rfl
  have hNothing : WordEnd [] := by
    intro c hc
    cases hc
  unfold hasChunk
  rw [hFile]
  dsimp only
  rw [hFuel]
  cases hLines : lines with
  | nil => rfl
  | cons line rest =>
      have hSome : lines ≠ [] := by
        rw [hLines]
        exact List.cons_ne_nil _ _
      rw [← hLines]
      unfold listedId
      rw [← hasChunkLoop_space, listText_cons ended hSome]
      cases ended with
      | true =>
          rw [linesText_ended]
          rcases hasChunkLoop_lines hash
              ((listText true lines).length -
                lines.length + 1) lines (textBuffer env)
              hNewline with ⟨buf, hLoop⟩
          rw [hLoop]
          cases lookupLine hash lines <;> rfl
      | false =>
          rcases hasChunkLoop_lines hash
              ((listText false lines).length -
                lines.length + 1) lines (textBuffer env)
              hNothing with ⟨buf, hLoop⟩
          rw [List.append_nil] at hLoop
          rw [hLoop]
          cases lookupLine hash lines <;> rfl

/- What `master_chunk` returns is an `int`. -/
theorem masterChunkLoop_range
    {input : Text}
    (hId : storeInt id = id)
    {found : Int}
    (h : masterChunkLoop hash fuel input id buf = .ok found) :
    storeInt found = found := by
  induction fuel generalizing input id buf with
  | zero => cases h
  | succ fuel ih =>
      unfold masterChunkLoop at h
      cases hScan : scanIntWord input with
      | eof =>
          rw [hScan] at h
          rw [← Except.ok.inj h]
          exact hId
      | none rest =>
          rw [hScan] at h
          dsimp only at h
          split at h
          · cases h
          · exact ih hId h
      | int newId rest =>
          have hNew := scanIntWord_range (.inl hScan)
          rw [hScan] at h
          dsimp only at h
          split at h
          · rw [← Except.ok.inj h]
            exact hNew
          · exact ih hNew h
      | both newId word rest =>
          have hNew := scanIntWord_range (.inr ⟨word, hScan⟩)
          rw [hScan] at h
          dsimp only at h
          split at h
          · cases h
          · split at h
            · rw [← Except.ok.inj h]
              exact hNew
            · exact ih hNew h

theorem masterChunk_range
    {env : Env}
    {files : Files}
    {config : BtConfig}
    (h : masterChunk env files config hash = .ok id) :
    storeInt id = id := by
  have hUnset : storeInt (-1) = -1 :=
    storeInt_eq_iff.mpr (by decide)
  unfold masterChunk at h
  split at h
  · rw [← Except.ok.inj h]
    exact hUnset
  · exact masterChunkLoop_range hUnset h

end

end PeerNet
