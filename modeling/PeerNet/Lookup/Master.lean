import PeerNet.Lookup.Lines
import PeerNet.Receiver.Links

/-
  Looking a hash up in the master-chunk file.

  `master_chunk` skips the two lines of the head and reads
  the chunk lines as items of `fscanf`. The call stores into
  `id` before the hash is compared, and unlike `has_chunk`
  nobody sets `id` back, so for a hash that is on no line
  the last id is returned. The skipping looks for a newline
  and not for the end of the file.

  Main declarations:
    * `MasterFile`
    * `masterChunk_master`
    * `master_lookup_iff`
    * `recordChunk_own`
-/

------------------------------------------------------------
-- Master-Chunk Files
------------------------------------------------------------

namespace PeerNet

open Prog Scanf

/-
  A master-chunk file: what follows `File:` and `Chunks:` on
  their lines, the chunk lines, and whether the last line of
  the file ends with a newline.
-/
structure MasterFile where
  name : Text
  extra : Text
  lines : List ChunkLine
  ended : Bool
  nameLine : InLine name
  extraLine : InLine extra

/- Chunk lines, each behind a newline, to the end of a file. -/
def linesText
    (ended : Bool) :
    List ChunkLine → Text
| [] => if ended then [10] else []
| line :: lines => 10 :: (line.text ++ linesText ended lines)

namespace MasterFile

/- The `Chunks:` line and what comes after it. -/
def chunksText
    (f : MasterFile) : Text :=
  [67, 104, 117, 110, 107, 115, 58] ++
    (f.extra ++ linesText f.ended f.lines)

/- The content of the file. -/
def text
    (f : MasterFile) : Text :=
  [70, 105, 108, 101, 58] ++ (f.name ++ 10 :: f.chunksText)

/- The lookup does what it is for. -/
def LooksUp
    (env : Env)
    (files : Files)
    (config : BtConfig)
    (hash : Hash)
    (f : MasterFile) : Prop :=
  masterChunk env files config hash =
    .ok (lookupId hash f.lines)

end MasterFile

/- What `id` holds after some lines. -/
def lastStored
    (id : Int)
    (lines : List ChunkLine) : Int :=
  (lines.getLast?.map ChunkLine.stored).getD id

/- What the loop makes of lines. -/
def scannedId
    (hash : Hash)
    (id : Int)
    (lines : List ChunkLine) : Int :=
  match lookupLine hash lines with
  | none => lastStored id lines
  | some line => line.stored

section

variable {hash : Hash} {lines : List ChunkLine}
variable {line : ChunkLine} {fuel : Nat} {id : Int}
variable {buf bytes rest : Text}

theorem lastStored_cons
    (id : Int)
    (line : ChunkLine)
    (lines : List ChunkLine) :
    lastStored id (line :: lines) =
      lastStored line.stored lines := by
  cases lines with
  | nil => rfl
  | cons next lines =>
      unfold lastStored
      rw [List.getLast?_cons_cons]
      cases hLast : (next :: lines).getLast? with
      | none => simp at hLast
      | some last => rfl

theorem scannedId_cons
    (hash : Hash)
    (id : Int)
    (line : ChunkLine)
    (lines : List ChunkLine) :
    scannedId hash id (line :: lines) =
      if line.hash = hash then line.stored
      else scannedId hash line.stored lines := by
  unfold scannedId
  rw [lookupLine_cons, lastStored_cons]
  by_cases hSame : line.hash = hash
  · rw [if_pos hSame, if_pos hSame]
  · rw [if_neg hSame, if_neg hSame]

/- Lines are separated by newlines. -/
theorem wordEnd_linesText
    (ended : Bool)
    (lines : List ChunkLine) :
    WordEnd (linesText ended lines) := by
  intro c hc
  have hNewline : c = 10 := by
    cases lines with
    | nil =>
        cases ended with
        | true => exact (Option.some.inj hc).symm
        | false => cases hc
    | cons line lines => exact (Option.some.inj hc).symm
  rw [hNewline]
  rfl

theorem length_linesText
    (ended : Bool)
    (lines : List ChunkLine) :
    lines.length ≤ (linesText ended lines).length := by
  induction lines with
  | nil => exact Nat.zero_le _
  | cons line lines ih =>
      simp only [linesText, List.length_cons,
        List.length_append]
      omega

/- The loop skips white space. -/
theorem masterChunkLoop_space
    (hash : Hash)
    (fuel : Nat)
    (id : Int)
    (buf input : Text) :
    masterChunkLoop hash fuel (10 :: input) id buf =
      masterChunkLoop hash fuel input id buf := by
  have hSpace : isSpace 10 = true := by decide
  cases fuel with
  | zero => rfl
  | succ fuel =>
      unfold masterChunkLoop
      rw [scanIntWord_space hSpace]

/- The loop over chunk lines. -/
theorem masterChunkLoop_lines
    (hash : Hash)
    (ended : Bool)
    (lines : List ChunkLine)
    (hFuel : lines.length < fuel) :
    masterChunkLoop hash fuel (linesText ended lines) id
        buf =
      .ok (scannedId hash id lines) := by
  induction lines generalizing fuel id buf with
  | nil =>
      have hBlank :
          scanIntWord (linesText ended []) = .eof := by
        cases ended <;> rfl
      cases fuel with
      | zero => omega
      | succ fuel =>
          rw [masterChunkLoop, hBlank]
          rfl
  | cons line lines ih =>
      rw [List.length_cons] at hFuel
      cases fuel with
      | zero => omega
      | succ fuel =>
          have hEnd := wordEnd_linesText ended lines
          have hStore := line.store buf
          rw [linesText, masterChunkLoop_space,
            masterChunkLoop, line.scan hEnd]
          dsimp only
          rw [hStore.1]
          dsimp only
          rw [hStore.2, scannedId_cons]
          unfold hashEqual
          by_cases hSame : line.hash = hash
          · rw [if_pos hSame,
              if_pos (decide_eq_true hSame.symm)]
          · have hOther : ¬ hash = line.hash :=
              fun h => hSame h.symm
            rw [if_neg hSame,
              if_neg (by simpa using hOther)]
            exact ih (by omega)

/- A line is skipped to its newline. -/
theorem skipLine_line
    (hLine : InLine bytes)
    (rest : Text) :
    skipLine (bytes ++ 10 :: rest) = .ok rest := by
  have hAll : ∀ c ∈ bytes, (c != 10) = true := by
    intro c hc
    simpa using hLine c hc
  have hDrop :
      (bytes ++ 10 :: rest).dropWhile (fun c => c != 10) =
        10 :: rest :=
    dropWhile_append_of_all hAll (by simp)
  unfold skipLine
  rw [hDrop]

/- A line without one is never skipped. -/
theorem skipLine_hang
    (hLine : InLine bytes) :
    skipLine bytes = .error .hang := by
  have hAll : ∀ c ∈ bytes, (c != 10) = true := by
    intro c hc
    simpa using hLine c hc
  have hDrop :
      (bytes ++ []).dropWhile (fun c => c != 10) = [] :=
    dropWhile_append_of_all hAll (by simp)
  rw [List.append_nil] at hDrop
  unfold skipLine
  rw [hDrop]

end

/- A letter that starts a line of the head. -/
theorem scan_head
    {c : UInt8}
    (hHead : c = 70 ∨ c = 67)
    (rest : Text) :
    scanIntWord (c :: rest) = .none (c :: rest) := by
  rcases hHead with rfl | rfl
  · exact scanIntWord_mismatch (by decide) (by decide)
      (by decide) (by decide) rest
  · exact scanIntWord_mismatch (by decide) (by decide)
      (by decide) (by decide) rest

/- What `master_chunk` makes of a file of this form. -/
theorem masterChunk_master
    {files : Files}
    {config : BtConfig}
    {f : MasterFile}
    (env : Env)
    (hash : Hash)
    (hFile : files.content config.chunkFile = some f.text) :
    masterChunk env files config hash =
      if f.lines = [] ∧ f.ended = false then .error .hang
      else .ok (scannedId hash (-1) f.lines) := by
  have hFew := length_linesText f.ended f.lines
  have hLength :
      f.lines.length + 3 ≤ f.text.length := by
    simp only [MasterFile.text, MasterFile.chunksText,
      List.length_append, List.length_cons, List.length_nil]
    omega
  have hName :
      InLine ([70, 105, 108, 101, 58] ++ f.name) :=
    InLine.append (by simp [InLine]) f.nameLine
  have hExtra :
      InLine ([67, 104, 117, 110, 107, 115, 58] ++
        f.extra) :=
    InLine.append (by simp [InLine]) f.extraLine
  have hFirst : skipLine f.text = .ok f.chunksText := by
    unfold MasterFile.text
    rw [← List.append_assoc]
    exact skipLine_line hName _
  have hScan : scanIntWord f.text = .none f.text :=
    scan_head (.inl rfl) _
  have hScanChunks :
      scanIntWord f.chunksText = .none f.chunksText :=
    scan_head (.inr rfl) _
  unfold masterChunk
  rw [hFile]
  dsimp only
  obtain ⟨fuel, hFuel⟩ :
      ∃ fuel, f.text.length = fuel + 1 :=
    ⟨f.text.length - 1, by omega⟩
  rw [hFuel, masterChunkLoop, hScan]
  dsimp only
  rw [hFirst]
  dsimp only
  rw [masterChunkLoop, hScanChunks]
  dsimp only
  cases hLines : f.lines with
  | nil =>
      cases hEnded : f.ended with
      | false =>
          -- the file ends in the `Chunks:` line
          have hHang :
              skipLine f.chunksText = .error .hang := by
            unfold MasterFile.chunksText
            rw [hLines, hEnded, linesText,
              if_neg Bool.false_ne_true, List.append_nil]
            exact skipLine_hang hExtra
          rw [hHang]
          rfl
      | true =>
          have hSkip :
              skipLine f.chunksText = .ok [] := by
            unfold MasterFile.chunksText
            rw [hLines, hEnded, linesText, if_pos rfl,
              ← List.append_assoc]
            exact skipLine_line hExtra _
          rw [hSkip, if_neg (by simp)]
          exact masterChunkLoop_lines hash false []
            (by rw [hLines] at hLength; simp at *; omega)
  | cons line lines =>
      have hSkip :
          skipLine f.chunksText =
            .ok (line.text ++ linesText f.ended lines) := by
        unfold MasterFile.chunksText
        rw [hLines, linesText, ← List.append_assoc]
        exact skipLine_line hExtra _
      rw [hSkip, if_neg (by simp), ← hLines]
      dsimp only
      rw [← masterChunkLoop_space]
      have hLoop :
          10 :: (line.text ++ linesText f.ended lines) =
            linesText f.ended f.lines := by
        rw [hLines, linesText]
      rw [hLoop]
      exact masterChunkLoop_lines hash f.ended f.lines
        (by omega)

/-
  The first line with the hash has an `int` for its id, or
  there is no such line and `id` holds -1 in the end. A file
  without chunk lines has to end with a newline.
-/
def MasterFile.Answers
    (hash : Hash)
    (f : MasterFile) : Prop :=
  (∃ line, lookupLine hash f.lines = some line ∧
    -2 ^ 31 ≤ line.id ∧ line.id < 2 ^ 31) ∨
  lookupLine hash f.lines = none ∧
    lastStored (-1) f.lines = -1 ∧
    (f.lines = [] → f.ended = true)

/-
  The id of the first line with the hash is returned, or -1
  where there is none, exactly in this case.
-/
theorem master_lookup_iff
    {files : Files}
    {config : BtConfig}
    {f : MasterFile}
    (env : Env)
    (hash : Hash)
    (hFile : files.content config.chunkFile = some f.text) :
    f.LooksUp env files config hash ↔ f.Answers hash := by
  unfold MasterFile.LooksUp MasterFile.Answers
  rw [masterChunk_master env hash hFile]
  cases hLine : lookupLine hash f.lines with
  | none =>
      have hId : lookupId hash f.lines = -1 := by
        unfold lookupId
        rw [hLine]
      have hScanned :
          scannedId hash (-1) f.lines =
            lastStored (-1) f.lines := by
        unfold scannedId
        rw [hLine]
      rw [hId, hScanned]
      by_cases hHang : f.lines = [] ∧ f.ended = false
      · rw [if_pos hHang]
        refine iff_of_false nofun ?_
        rintro (⟨_, hSome, _⟩ | ⟨_, _, hEnd⟩)
        · cases hSome
        · rw [hEnd hHang.1] at hHang
          cases hHang.2
      · rw [if_neg hHang]
        constructor
        · intro hLast
          refine .inr ⟨rfl, Except.ok.inj hLast, ?_⟩
          intro hNone
          by_contra hOpen
          exact hHang ⟨hNone, Bool.eq_false_iff.mpr hOpen⟩
        · rintro (⟨_, hSome, _⟩ | ⟨_, hLast, _⟩)
          · cases hSome
          · rw [hLast]
  | some line =>
      have hSome : f.lines ≠ [] := by
        intro hNone
        rw [hNone] at hLine
        cases hLine
      have hId : lookupId hash f.lines = line.id := by
        unfold lookupId
        rw [hLine]
      have hScanned :
          scannedId hash (-1) f.lines = line.stored := by
        unfold scannedId
        rw [hLine]
      rw [hId, hScanned, if_neg fun h => hSome h.1]
      constructor
      · intro hSame
        exact .inl ⟨line, rfl,
          storeInt_eq_iff.mp (Except.ok.inj hSame)⟩
      · rintro (⟨_, hIs, hFits⟩ | ⟨hNone, _⟩)
        · cases hIs
          exact congrArg Except.ok
            (storeInt_eq_iff.mpr hFits)
        · cases hNone

/- What is appended follows what was there. -/
theorem content_append
    {files : Files}
    {path : Path}
    {text bytes : Bytes}
    (hFile : files.content path = some text) :
    (files.append path bytes).content path =
      some (text ++ bytes) := by
  unfold Files.append Files.write
  dsimp only
  rw [Function.update_self, hFile]
  rfl

/- Opening a file to append to it does not change it. -/
theorem content_append_nil
    {files : Files}
    {path : Path}
    {text : Bytes}
    (opened : Path)
    (hFile : files.content path = some text) :
    (files.append opened []).content path = some text := by
  by_cases hSame : path = opened
  · rw [← hSame, content_append hFile, List.append_nil]
  · unfold Files.append Files.write
    dsimp only
    rw [Function.update_of_ne hSame, hFile]

/- Then `finish_chunk` records the id of the hash's line. -/
theorem recordChunk_own
    {n : Node}
    {f : MasterFile}
    (env : Env)
    (r : ChunkRef)
    (hash : Hash)
    (hFile :
      n.files.content n.config.chunkFile = some f.text)
    (hAnswers : f.Answers hash) :
    wp (recordChunk env r hash)
      (fun _ m =>
        GetMoves
          (n.recorded r (lookupId hash f.lines) hash) m)
      (fun fault _ => fault.isPointer = false) n := by
  have hOpened :=
    content_append_nil n.config.hasChunkFile hFile
  have hLooks : masterChunk env _ n.config hash = _ :=
    (master_lookup_iff env hash hOpened).mpr hAnswers
  apply wp_mono (recordChunk_spec env r hash n)
  · rintro _ m ⟨id, hId, hMoves⟩
    rw [hLooks] at hId
    rw [Except.ok.inj hId]
    exact hMoves
  · exact fun _ _ h => h.1

/- `File: D`, `Chunks:` and the one line. -/
def zeroMaster : MasterFile where
  name := [32, 68]
  extra := []
  lines := [zeroLine]
  ended := true
  nameLine := by simp [InLine]
  extraLine := by simp [InLine]

/- A file system with the master-chunk file. -/
def masterFiles
    (f : MasterFile) : Files where
  content := fun path =>
    if path = onePeerNode.config.chunkFile then some f.text
    else none
  writable := fun _ => true

theorem masterFiles_content
    (f : MasterFile) :
    (masterFiles f).content onePeerNode.config.chunkFile =
      some f.text := by
  simp [masterFiles]

theorem master_lookup_zeros :
    zeroMaster.LooksUp stillEnv (masterFiles zeroMaster)
        onePeerNode.config (Vector.replicate 20 0) ↔
      zeroMaster.Answers (Vector.replicate 20 0) :=
  master_lookup_iff stillEnv (Vector.replicate 20 0)
    (masterFiles_content zeroMaster)

/- A hash that is on no line gets the id of the last one. -/
theorem absent_hash_gets_id :
    ¬ ∀ (env : Env) (files : Files) (config : BtConfig)
        (f : MasterFile) (hash : Hash),
      files.content config.chunkFile = some f.text →
        f.LooksUp env files config hash := by
  intro hClaim
  have hLooks : masterChunk _ _ _ _ = _ :=
    hClaim stillEnv (masterFiles zeroMaster)
      onePeerNode.config zeroMaster (Vector.replicate 20 1)
      (masterFiles_content zeroMaster)
  have hFound :
      masterChunk stillEnv (masterFiles zeroMaster)
          onePeerNode.config (Vector.replicate 20 1) =
        .ok 0 := by
    decide
  have hAbsent :
      lookupId (Vector.replicate 20 1) zeroMaster.lines =
        -1 := by
    decide
  rw [hFound, hAbsent] at hLooks
  cases hLooks

end PeerNet
