import PeerNet.Lookup.ChunkList

/-
  Recording a chunk in the has-chunk file.

  `finish_chunk` appends a line to the file and never looks
  at what is in it. A file that ends with a newline, or has
  nothing in it, stays a list of chunk lines, and the lookups
  find what they found and the new line. Otherwise the new
  id belongs to the last word of the file.

  Main declarations:
    * `hex2binary_binary2hex`
    * `Recordings`
    * `Recordings.content`
    * `recordings_sound_iff`
-/

------------------------------------------------------------
-- Printed Hashes
------------------------------------------------------------

namespace PeerNet

open Scanf

theorem hexValue_hexDigit
    {k : Nat}
    (hk : k < 16) :
    hexValue (hexDigit k) = UInt8.ofNat k := by
  have hAll :
      ∀ k : Fin 16,
        hexValue (hexDigit k.val) = UInt8.ofNat k.val := by
    decide
  exact hAll ⟨k, hk⟩

theorem isHexDigit_hexDigit
    {k : Nat}
    (hk : k < 16) :
    isHexDigit (hexDigit k) = true := by
  have hAll :
      ∀ k : Fin 16, isHexDigit (hexDigit k.val) = true := by
    decide
  exact hAll ⟨k, hk⟩

/- `hex2binary` reads what `binary2hex` has written. -/
theorem hex2binary_binary2hex
    (hash : Hash) :
    hex2binary (binary2hex hash) = hash := by
  have hLength : hash.toList.length = 20 := hash.length_toList
  apply Vector.ext
  intro i hi
  have hIn : i < hash.toList.length := by omega
  have hDigits := getD_printHex hIn
  have hByte := hash[i].toNat_lt
  unfold hex2binary binary2hex
  rw [Vector.getElem_ofFn]
  dsimp only
  rw [hDigits.1, hDigits.2, Vector.getElem_toList,
    hexValue_hexDigit (by omega),
    hexValue_hexDigit (by omega), byte_of_halves]

end PeerNet

------------------------------------------------------------
-- Recorded Lines
------------------------------------------------------------

namespace PeerNet

open Scanf

/- A chunk that was recorded, and the id it was given. -/
structure ChunkRecord where
  hash : Hash
  id : Int

namespace ChunkRecord

/- The line that is written for it. -/
def line
    (record : ChunkRecord) : ChunkLine where
  negative := decide (record.id < 0)
  digits := printDigits record.id.natAbs
  hex := binary2hex record.hash
  number := number_printDigits _
  length := by
    unfold binary2hex
    rw [length_printHex, record.hash.length_toList]
  hexDigits := by
    intro c hc
    rcases mem_printHex hc with ⟨k, hk, rfl⟩
    exact isHexDigit_hexDigit hk

theorem line_text
    (record : ChunkRecord) :
    hasChunkLine record.id record.hash =
      record.line.text ++ [10] := by
  unfold hasChunkLine ChunkLine.text
  rw [printInt_eq]
  rfl

theorem line_hash
    (record : ChunkRecord) :
    record.line.hash = record.hash :=
  hex2binary_binary2hex record.hash

theorem line_id
    (record : ChunkRecord) :
    record.line.id = record.id := by
  unfold ChunkLine.id line
  dsimp only
  rw [digitsValue_printDigits]
  by_cases hNegative : record.id < 0
  · rw [decide_eq_true hNegative, if_pos rfl]
    omega
  · rw [decide_eq_false hNegative, if_neg Bool.false_ne_true]
    omega

end ChunkRecord

/- What recordings add to a file. -/
def recordsText
    (records : List ChunkRecord) : Text :=
  records.flatMap fun record =>
    hasChunkLine record.id record.hash

section

variable {records : List ChunkRecord}
variable {lines : List ChunkLine}

/- Behind a line that has ended, they are lines. -/
theorem linesText_records
    (lines : List ChunkLine)
    (records : List ChunkRecord) :
    linesText true lines ++ recordsText records =
      linesText true
        (lines ++ records.map ChunkRecord.line) := by
  induction records generalizing lines with
  | nil => simp [recordsText]
  | cons record records ih =>
      have hStep :
          linesText true lines ++
              hasChunkLine record.id record.hash =
            linesText true (lines ++ [record.line]) := by
        rw [linesText_append, linesText_ended, record.line_text]
        simp [linesText]
      have hMore := ih (lines ++ [record.line])
      rw [← hStep] at hMore
      unfold recordsText at hMore ⊢
      rw [List.flatMap_cons, List.map_cons,
        ← List.append_assoc, hMore]
      simp

/- So a list that takes another line stays a list. -/
theorem listText_records
    {ended : Bool}
    (hWhole : lines = [] ∨ ended = true) :
    ∃ ended',
      listText ended lines ++ recordsText records =
        listText ended'
          (lines ++ records.map ChunkRecord.line) := by
  refine ⟨true, ?_⟩
  have hAppend := linesText_records lines records
  cases lines with
  | nil =>
      cases records with
      | nil => rfl
      | cons record records =>
          have hSome :
              (record :: records).map ChunkRecord.line ≠
                [] :=
            by simp
          rw [List.nil_append, ← listText_cons true hSome]
            at hAppend
          exact (List.cons.inj hAppend).2
  | cons line lines =>
      rcases hWhole with hNone | rfl
      · cases hNone
      · rw [← listText_cons true (List.cons_ne_nil _ _),
          List.cons_append, List.cons_append,
          ← listText_cons true (List.cons_ne_nil _ _)]
            at hAppend
        exact (List.cons.inj hAppend).2

end

end PeerNet

------------------------------------------------------------
-- Recordings
------------------------------------------------------------

namespace PeerNet

open Prog Scanf

/-
  The chunks that a process records on its way from one node
  to another. `finish_chunk` opens the file, asks for the id
  and appends the line; in between, everything may change but
  what is in the has-chunk file.
-/
inductive Recordings
    (env : Env)
    (n : Node) : List ChunkRecord → Node → Prop
| none : Recordings env n [] n
| aside (m k : Node) (records : List ChunkRecord) :
    Recordings env n records m →
    k.files.content k.config.hasChunkFile =
      m.files.content m.config.hasChunkFile →
    Recordings env n records k
| record
    (m : Node)
    (r : ChunkRef)
    (records : List ChunkRecord)
    (record : ChunkRecord) :
    Recordings env n records m →
    m.files.writable m.config.hasChunkFile = true →
    masterChunk env
        (m.files.append m.config.hasChunkFile [])
        m.config record.hash = .ok record.id →
    Recordings env n (records ++ [record])
      (m.recorded r record.id record.hash)

/-
  The hashes were not listed before, and the master-chunk
  file has given each an id.
-/
structure Recordable
    (lines : List ChunkLine)
    (records : List ChunkRecord) : Prop where
  unlisted : ∀ record ∈ records, ∀ line ∈ lines,
    line.hash ≠ record.hash
  distinct : (records.map ChunkRecord.hash).Nodup
  given : ∀ record ∈ records, 0 ≤ record.id

/-
  `has_chunk` finds what was recorded, and for every other
  hash what it found before.
-/
structure Updated
    (env : Env)
    (n : Node)
    (records : List ChunkRecord)
    (m : Node) : Prop where
  recorded : ∀ record ∈ records,
    hasChunk env m.files m.config record.hash =
      .ok record.id
  kept : ∀ hash,
    (∀ record ∈ records, record.hash ≠ hash) →
      hasChunk env m.files m.config hash =
        hasChunk env n.files n.config hash

section

variable {env : Env} {n m : Node} {hash : Hash}
variable {records more : List ChunkRecord}
variable {record : ChunkRecord} {lines : List ChunkLine}
variable {text : Text} {ended : Bool}

/- `finish_chunk` records a chunk before it does the rest. -/
theorem recordChunk_recordings
    (r : ChunkRef)
    (hOpen : n.files.writable n.config.hasChunkFile = true) :
    wp (recordChunk env r hash)
      (fun _ m => ∃ id,
        Recordings env n [⟨hash, id⟩]
            (n.recorded r id hash) ∧
          GetMoves (n.recorded r id hash) m)
      (fun fault _ => fault.isPointer = false) n := by
  apply wp_mono (recordChunk_spec env r hash n)
  · rintro _ m ⟨id, hId, hMoves⟩
    exact ⟨id, .record n r [] ⟨hash, id⟩ .none hOpen hId,
      hMoves⟩
  · exact fun _ _ h => h.1

/- What is in the file is kept, and the lines follow it. -/
theorem Recordings.content
    (h : Recordings env n records m)
    (hFile :
      n.files.content n.config.hasChunkFile = some text) :
    m.files.content m.config.hasChunkFile =
      some (text ++ recordsText records) := by
  induction h with
  | none =>
      rw [hFile]
      simp [recordsText]
  | aside m k records _ hSame ih => rw [hSame, ih]
  | record m r records record _ _ _ ih =>
      have hOpened :=
        content_append_nil m.config.hasChunkFile ih
      have hAdded :
          recordsText (records ++ [record]) =
            recordsText records ++
              hasChunkLine record.id record.hash := by
        simp [recordsText]
      rw [hAdded, ← List.append_assoc]
      exact content_append hOpened

/- A recorded id is an `int`. -/
theorem Recordings.stored
    (h : Recordings env n records m)
    (hRecord : record ∈ records) :
    record.line.stored = record.id := by
  unfold ChunkLine.stored
  rw [record.line_id]
  induction h with
  | none => cases hRecord
  | aside m k records _ _ ih => exact ih hRecord
  | record m r records last _ _ hId ih =>
      rcases List.mem_append.mp hRecord with hBefore | hLast
      · exact ih hBefore
      · rw [List.mem_singleton.mp hLast]
        exact masterChunk_range hId

/- The lookups in the list with the recorded lines. -/
theorem listedId_record
    (hRecordable : Recordable lines records)
    (hRecord : record ∈ records) :
    listedId record.hash
        (lines ++ records.map ChunkRecord.line) =
      record.line.stored := by
  have hUnlisted : lookupLine record.hash lines = none := by
    unfold lookupLine
    rw [List.find?_eq_none]
    intro line hLine hSame
    exact hRecordable.unlisted record hRecord line hLine
      (of_decide_eq_true hSame)
  have hDistinct := hRecordable.distinct
  rw [listedId_append, hUnlisted]
  dsimp only
  clear hRecordable hUnlisted
  unfold listedId
  induction records with
  | nil => cases hRecord
  | cons first records ih =>
      rw [List.map_cons, List.nodup_cons] at hDistinct
      rw [List.map_cons, lookupLine_cons, first.line_hash]
      rcases List.mem_cons.mp hRecord with rfl | hMem
      · rw [if_pos rfl]
      · have hOther : first.hash ≠ record.hash := by
          intro hSame
          rw [hSame] at hDistinct
          exact hDistinct.1 (List.mem_map_of_mem hMem)
        rw [if_neg hOther]
        exact ih hMem hDistinct.2

theorem listedId_other
    (hOther : ∀ record ∈ records, record.hash ≠ hash) :
    listedId hash (lines ++ records.map ChunkRecord.line) =
      listedId hash lines := by
  have hNone :
      lookupLine hash (records.map ChunkRecord.line) =
        none := by
    unfold lookupLine
    rw [List.find?_eq_none]
    intro line hLine hSame
    rcases List.mem_map.mp hLine with ⟨record, hMem, rfl⟩
    apply hOther record hMem
    rw [← record.line_hash]
    exact of_decide_eq_true hSame
  rw [listedId_append]
  unfold listedId
  rw [hNone]
  cases lookupLine hash lines <;> rfl

/- A digit behind a line belongs to its hash. -/
theorem ChunkLine.scan_joined
    (line : ChunkLine)
    {digits rest : Text}
    (hNumber : Number digits)
    (hEnd : WordEnd rest) :
    scanIntWord (line.text ++ (digits ++ rest)) =
      .both line.stored (line.hex ++ digits) rest := by
  have hWord : Word (line.hex ++ digits) := by
    constructor
    · simp [line.word.some]
    · intro c hc
      rcases List.mem_append.mp hc with hHex | hDigit
      · exact line.word.all c hHex
      · exact (plain_of_isDigit (hNumber.all c hDigit)).1
  have hPair :=
    scanIntWord_pair line.negative line.number hWord hEnd
  rw [List.append_assoc] at hPair
  unfold ChunkLine.text
  rw [List.append_assoc, List.cons_append, hPair]
  rfl

/-
  Behind a line that has not ended, the id of the new line is
  part of the last hash, which no longer fits in the buffer.
-/
theorem hasChunk_joined
    (hLines : lines ≠ [])
    (hFile :
      m.files.content m.config.hasChunkFile =
        some
          (listText false lines ++
            recordsText (record :: more)))
    (hUnlisted : ∀ line ∈ lines, line.hash ≠ record.hash)
    (hId : 0 ≤ record.id) :
    hasChunk env m.files m.config record.hash =
      .error .textOverflow := by
  obtain hNone | ⟨init, last, rfl⟩ :=
    List.eq_nil_or_concat' lines
  · exact absurd hNone hLines
  have hDigits := number_printDigits record.id.natAbs
  have hNewline : isSpace 10 = true := by decide
  have hBlank : isSpace 32 = true := by decide
  have hUnfound : lookupLine record.hash init = none := by
    unfold lookupLine
    rw [List.find?_eq_none]
    intro line hLine hSame
    exact hUnlisted line (List.mem_append_left _ hLine)
      (of_decide_eq_true hSame)
  -- the text from the last line on
  obtain ⟨rest, hEnd, hRest⟩ :
      ∃ rest, WordEnd rest ∧
        recordsText (record :: more) =
          printDigits record.id.natAbs ++ rest := by
    refine
      ⟨32 :: binary2hex record.hash ++ [10] ++
        recordsText more, ?_, ?_⟩
    · intro c hc
      rw [← Option.some.inj hc]
      exact hBlank
    · unfold recordsText hasChunkLine
      rw [List.flatMap_cons, printInt_eq,
        decide_eq_false (by omega)]
      simp [signed]
  have hText :
      10 :: (listText false (init ++ [last]) ++
          recordsText (record :: more)) =
        linesText false init ++
          10 :: (last.text ++
            (printDigits record.id.natAbs ++ rest)) := by
    rw [← List.cons_append, listText_cons false hLines,
      linesText_append, hRest]
    simp [linesText]
  have hNext :
      WordEnd
        (10 :: (last.text ++
          (printDigits record.id.natAbs ++ rest))) := by
    intro c hc
    rw [← Option.some.inj hc]
    exact hNewline
  have hLong :
      40 < (last.hex ++
        printDigits record.id.natAbs).length := by
    have hSome := List.length_pos_of_ne_nil hDigits.some
    rw [List.length_append, last.length]
    omega
  have hFuel :
      init.length ≤
        (listText false (init ++ [last]) ++
          recordsText (record :: more)).length := by
    have hFew := length_listText false (init ++ [last])
    rw [List.length_append] at hFew ⊢
    omega
  unfold hasChunk
  rw [hFile]
  dsimp only
  obtain ⟨fuel, hFuel⟩ := Nat.exists_eq_add_of_le hFuel
  rw [hFuel, Nat.add_assoc, ← hasChunkLoop_space, hText]
  rcases hasChunkLoop_lines record.hash (fuel + 1) init
      (textBuffer env) hNext with ⟨buf, hLoop⟩
  rw [hLoop, hUnfound]
  dsimp only
  rw [hasChunkLoop_space, hasChunkLoop,
    last.scan_joined hDigits hEnd]
  dsimp only
  unfold storeWord
  rw [if_neg (by omega)]

/-
  Recordings update a has-chunk file soundly if and only if
  the first of them finds it empty or ended by a newline.
-/
theorem recordings_sound_iff
    (hFile :
      n.files.content n.config.hasChunkFile =
        some (listText ended lines))
    (hRun : Recordings env n records m)
    (hRecordable : Recordable lines records) :
    Updated env n records m ↔
      records = [] ∨ lines = [] ∨ ended = true := by
  have hContent := hRun.content hFile
  constructor
  · intro hUpdated
    by_contra hNot
    rw [not_or, not_or] at hNot
    rcases hNot with ⟨hSome, hLines, hOpen⟩
    rw [Bool.not_eq_true] at hOpen
    subst hOpen
    cases records with
    | nil => exact hSome rfl
    | cons record more =>
        have hMem : record ∈ record :: more :=
          List.mem_cons_self
        have hFault : hasChunk env m.files m.config _ = _ :=
          hasChunk_joined hLines hContent
            (hRecordable.unlisted record hMem)
            (hRecordable.given record hMem)
        have hFound := hUpdated.recorded record hMem
        rw [hFault] at hFound
        cases hFound
  · intro hWhole
    obtain ⟨ended', hList⟩ :
        ∃ ended',
          listText ended lines ++ recordsText records =
            listText ended'
              (lines ++ records.map ChunkRecord.line) := by
      rcases hWhole with rfl | hWhole
      · exact ⟨ended, by simp [recordsText]⟩
      · exact listText_records hWhole
    rw [hList] at hContent
    constructor
    · intro record hRecord
      rw [hasChunk_list env _ hContent,
        listedId_record hRecordable hRecord,
        hRun.stored hRecord]
    · intro hash hOther
      rw [hasChunk_list env _ hContent,
        hasChunk_list env _ hFile, listedId_other hOther]

end

/- `1` and forty ones. -/
def onesLine : ChunkLine where
  negative := false
  digits := [49]
  hex := List.replicate 40 49
  number := number_one
  length := rfl
  hexDigits := by
    intro c hc
    rw [List.eq_of_mem_replicate hc]
    rfl

/- Its hash, with the id that the master-chunk file gives. -/
def onesRecord : ChunkRecord where
  hash := Vector.replicate 20 17
  id := 1

/- A master-chunk file with the zeros and the ones. -/
def pairMaster : MasterFile :=
  { zeroMaster with lines := [zeroLine, onesLine] }

/- A process with this file, and a has-chunk file. -/
def recordingNode
    (text : Text) : Node :=
  { onePeerNode with
    files :=
      { content := fun path =>
          if path = [1] then some pairMaster.text
          else if path = [2] then some text
          else none
        writable := fun _ => true } }

theorem recordingNode_recordings
    (text : Text) :
    Recordings stillEnv (recordingNode text) [onesRecord]
      ((recordingNode text).recorded 0 onesRecord.id
        onesRecord.hash) := by
  have hMaster :
      ((recordingNode text).files.append
          (recordingNode text).config.hasChunkFile
          []).content
            (recordingNode text).config.chunkFile =
        some pairMaster.text :=
    content_append_nil _ rfl
  have hId :
      masterChunk stillEnv
          ((recordingNode text).files.append
            (recordingNode text).config.hasChunkFile [])
          (recordingNode text).config onesRecord.hash =
        .ok onesRecord.id := by
    unfold masterChunk
    rw [hMaster]
    decide
  exact .record _ 0 [] onesRecord .none rfl hId

theorem onesRecord_recordable :
    Recordable [zeroLine] [onesRecord] where
  unlisted := by
    intro record hRecord line hLine
    rw [List.mem_singleton.mp hRecord,
      List.mem_singleton.mp hLine]
    decide
  distinct := by simp
  given := by
    intro record hRecord
    rw [List.mem_singleton.mp hRecord]
    decide

theorem recordings_sound_ones :
    Updated stillEnv
        (recordingNode (listText true [zeroLine]))
        [onesRecord]
        ((recordingNode (listText true [zeroLine])).recorded
          0 onesRecord.id onesRecord.hash) ↔
      [onesRecord] = [] ∨ [zeroLine] = [] ∨ true = true :=
  recordings_sound_iff rfl (recordingNode_recordings _)
    onesRecord_recordable

/- The id of the new line becomes part of the old hash. -/
theorem joined_record_lost :
    ¬ ∀ (env : Env) (n m : Node) (lines : List ChunkLine)
        (ended : Bool) (records : List ChunkRecord),
      n.files.content n.config.hasChunkFile =
          some (listText ended lines) →
        Recordings env n records m →
          Recordable lines records →
            Updated env n records m := by
  intro hClaim
  have hUpdated :=
    hClaim stillEnv
      (recordingNode (listText false [zeroLine])) _
      [zeroLine] false [onesRecord] rfl
      (recordingNode_recordings _) onesRecord_recordable
  have hRecord : onesRecord ∈ [onesRecord] :=
    List.mem_singleton_self _
  have hFound := hUpdated.recorded onesRecord hRecord
  have hContent :=
    (recordingNode_recordings
      (listText false [zeroLine])).content rfl
  have hFault : hasChunk stillEnv _ _ onesRecord.hash = _ :=
    hasChunk_joined (List.cons_ne_nil _ _) hContent
      (onesRecord_recordable.unlisted onesRecord hRecord)
      (onesRecord_recordable.given onesRecord hRecord)
  rw [hFault] at hFound
  cases hFound

end PeerNet
