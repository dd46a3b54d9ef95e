import PeerNet.Lookup.Recording
import PeerNet.Model.MakeChunks
import PeerNet.Receiver.Numbering
import PeerNet.Sender.Published

/-
  From the list that `make-chunks` prints to the list that a
  GET downloads.

  `make-chunks` prints one line for each part of its file,
  numbered from 0. `process_user_get` reads the lines back,
  so its download list has the numbers and hashes of the
  file, and has them whenever `finish_get` is entered.

  Main declarations:
    * `publishedItems`
    * `makeChunksMain_eq`
    * `Wants`
    * `wants_of_run`
-/

------------------------------------------------------------
-- What Is Printed
------------------------------------------------------------

namespace PeerNet

/- The numbers and the hashes of the parts of a file. -/
def publishedItems
    (env : Env)
    (file : Bytes) : List (Int × Hash) :=
  (makeChunks env file).zipIdx.map fun entry =>
    ((entry.2 : Nat), entry.1)

/- As lines of a chunk list. -/
def publishedLines
    (env : Env)
    (file : Bytes) : List ChunkLine :=
  (publishedItems env file).map fun item =>
    ChunkRecord.line ⟨item.2, item.1⟩

section

variable {env : Env} {file : Bytes} {i : Nat}

theorem length_makeChunks
    (env : Env)
    (file : Bytes) :
    (makeChunks env file).length = getNumchunks file := by
  have hSize : btChunkSize = 524288 := rfl
  have hAt :
      ∀ i, i < (makeChunks env file).length ↔
        i * btChunkSize < file.length := by
    intro i
    have hRead := getElem?_chunkReads
      (Nat.lt_succ_self file.length) i
    rw [makeChunks, List.length_map]
    by_cases hIn : i * btChunkSize < file.length
    · rw [if_pos hIn] at hRead
      exact iff_of_true
        (List.getElem?_eq_some_iff.mp hRead).1 hIn
    · rw [if_neg hIn] at hRead
      exact iff_of_false
        (Nat.not_lt.mpr (List.getElem?_eq_none_iff.mp hRead))
        hIn
  have hLast := hAt (getNumchunks file)
  have hEnd := hAt (makeChunks env file).length
  unfold getNumchunks at hLast ⊢
  rw [hSize] at hLast hEnd ⊢
  omega

/- There is room for every hash, and each has its line. -/
theorem makeChunksMain_lines
    (env : Env)
    (file : Bytes) :
    ∃ ended,
      makeChunksMain env file =
        some (listText ended (publishedLines env file)) := by
  have hRoom :
      ¬ getNumchunks file < (makeChunks env file).length := by
    rw [length_makeChunks]
    exact Nat.lt_irrefl _
  let records : List ChunkRecord :=
    (makeChunks env file).zipIdx.map fun entry =>
      ⟨entry.1, (entry.2 : Nat)⟩
  have hRecords :
      publishedLines env file =
        records.map ChunkRecord.line := by
    rw [publishedLines, publishedItems, List.map_map,
      List.map_map]
    rfl
  have hWhole : ([] : List ChunkLine) = [] ∨ true = true :=
    .inl rfl
  have hText :
      ∃ ended,
        listText true [] ++ recordsText records =
          listText ended
            ([] ++ records.map ChunkRecord.line) :=
    listText_records hWhole
  rcases hText with ⟨ended, hText⟩
  refine ⟨ended, ?_⟩
  rw [listText, List.nil_append, List.nil_append] at hText
  rw [makeChunksMain, if_neg hRoom, hRecords, ← hText,
    recordsText, List.flatMap_map]

theorem length_publishedItems
    (env : Env)
    (file : Bytes) :
    (publishedItems env file).length = getNumchunks file := by
  rw [publishedItems, List.length_map, List.length_zipIdx,
    length_makeChunks]

theorem getElem?_publishedItems
    (env : Env)
    (file : Bytes)
    (i : Nat) :
    (publishedItems env file)[i]? =
      if i * btChunkSize < file.length then
        some ((i : Int),
          env.shahash
            ((file.drop (i * btChunkSize)).take
              btChunkSize))
      else
        none := by
  unfold publishedItems
  rw [List.getElem?_map, List.getElem?_zipIdx, makeChunks,
    List.getElem?_map,
    getElem?_chunkReads (Nat.lt_succ_self _)]
  by_cases hIn : i * btChunkSize < file.length
  · rw [if_pos hIn, if_pos hIn]
    simp
  · rw [if_neg hIn, if_neg hIn]
    rfl

/- The numbers are those of the places in the list. -/
theorem map_fst_publishedItems
    (env : Env)
    (file : Bytes) :
    (publishedItems env file).map Prod.fst =
      lookedUp (getNumchunks file) := by
  rw [publishedItems, List.map_map, lookedUp,
    ← length_makeChunks env file, List.range_eq_range',
    ← List.zipIdx_map_snd 0, List.map_map]
  rfl

/- `%d` stores the numbers of any file an `int` counts. -/
theorem publishedLines_items
    (env : Env)
    {file : Bytes}
    (hSize : file.length < 2 ^ 50) :
    (publishedLines env file).map (fun line =>
        (line.stored, line.hash)) =
      publishedItems env file := by
  have hFew : getNumchunks file ≤ 2 ^ 31 := by
    have hChunk : btChunkSize = 524288 := rfl
    unfold getNumchunks
    rw [hChunk]
    omega
  rw [publishedLines, List.map_map]
  conv_rhs => rw [← List.map_id (publishedItems env file)]
  apply List.map_congr_left
  rintro ⟨id, hash⟩ hItem
  have hId :
      id ∈ lookedUp (getNumchunks file) := by
    rw [← map_fst_publishedItems env file]
    exact List.mem_map_of_mem hItem
  rcases List.mem_map.mp hId with ⟨i, hi, rfl⟩
  rw [List.mem_range] at hi
  have hStored : Scanf.storeInt (Int.ofNat i) = Int.ofNat i := by
    apply Scanf.storeInt_eq_iff.mpr
    rw [Int.ofNat_eq_natCast]
    omega
  dsimp only [Function.comp, id]
  rw [ChunkLine.stored, ChunkRecord.line_id,
    ChunkRecord.line_hash]
  exact Prod.ext hStored rfl

end

end PeerNet

------------------------------------------------------------
-- What Is Downloaded
------------------------------------------------------------

namespace PeerNet

open Prog Runs Scanf

/-
  The download list of a GET has these items, unless it was
  freed, and the GET writes to this file.
-/
structure Wants
    (chunkfile outputfile : Path)
    (items : List (Int × Hash))
    (c : BtConfig) : Prop where
  getChunkFile : c.getChunkFile = chunkfile
  outputFile : c.outputFile = outputfile
  numChunks : c.numChunks = items.length
  list : c.download = [] ∨
    (downloadChunks c).map BtChunk.item = items

/- Between `n` and `m`, `finish_get` found it so. -/
structure WantsSince
    (chunkfile outputfile : Path)
    (items : List (Int × Hash))
    (n m : Node) : Prop where
  config : Wants chunkfile outputfile items m.config
  entered : ∃ new, finishes m.trace = finishes n.trace ++ new ∧
    ∀ entry ∈ new, Wants chunkfile outputfile items entry.1

section

variable {env : Env} {call : Call} {n m k : Node}
variable {chunkfile outputfile : Path} {e : NodeEvent}
variable {items : List (Int × Hash)} {c c' : BtConfig}

theorem Wants.same
    (h : Wants chunkfile outputfile items c)
    (hItems : SameItems c c')
    (hList : c'.download = c.download)
    (hCount : c'.numChunks = c.numChunks)
    (hSource : c'.getChunkFile = c.getChunkFile)
    (hTarget : c'.outputFile = c.outputFile) :
    Wants chunkfile outputfile items c' where
  getChunkFile := hSource.trans h.getChunkFile
  outputFile := hTarget.trans h.outputFile
  numChunks := hCount.trans h.numChunks
  list := by
    rw [hList, hItems.downloadChunks hList]
    exact h.list

/- The items of a file, read into an empty list. -/
theorem wants_load
    (hNone : c.download = [])
    (chunkfile outputfile : Path)
    (read : List Item) :
    Wants chunkfile outputfile
      (read.map fun item => (item.id, item.hash))
      (c.load chunkfile outputfile read) := by
  -- every item adds its node behind the others
  have hAll :
      ∀ (read : List Item) (c : BtConfig),
        (∀ r ∈ c.download, r < c.nextChunk) →
          (downloadChunks
              (read.foldl BtConfig.addItem c)).map
                BtChunk.item =
              (downloadChunks c).map BtChunk.item ++
                read.map (fun item =>
                  (item.id, item.hash)) ∧
            (read.foldl BtConfig.addItem c).numChunks =
                c.numChunks + read.length ∧
              (read.foldl BtConfig.addItem c).getChunkFile =
                  c.getChunkFile ∧
                (read.foldl BtConfig.addItem c).outputFile =
                  c.outputFile := by
    intro read
    induction read with
    | nil => simp
    | cons item read ih =>
        intro c hFresh
        have hLower :
            ∀ r ∈ (c.addItem item).download,
              r < (c.addItem item).nextChunk := by
          intro r hr
          change r < c.nextChunk + 1
          rcases List.mem_append.mp hr with hOld | hNew
          · exact Nat.lt_succ_of_lt (hFresh r hOld)
          · rw [List.mem_singleton.mp hNew]
            exact Nat.lt_succ_self _
        have hAdded :=
          downloadChunks_addItem
            (fun hMem => Nat.lt_irrefl _ (hFresh _ hMem))
            item
        rcases ih _ hLower with
          ⟨hItems, hCount, hSource, hTarget⟩
        rw [List.foldl_cons]
        refine ⟨?_, ?_, hSource, hTarget⟩
        · rw [hItems, hAdded]
          simp [Item.chunk, BtChunk.item]
        · rw [hCount]
          simp [BtConfig.addItem]
          omega
  have hStart :
      ∀ r ∈ (c.startGet chunkfile outputfile).download,
        r < (c.startGet chunkfile outputfile).nextChunk := by
    simp [hNone]
  rcases hAll read _ hStart with
    ⟨hItems, hCount, hSource, hTarget⟩
  refine ⟨hSource, hTarget, ?_, .inr ?_⟩
  · unfold BtConfig.load
    rw [hCount]
    simp
  · unfold BtConfig.load
    rw [hItems]
    simp [downloadChunks, hNone]

theorem Wants.move
    (hCall : call ≠ .userGet)
    (h : Wants chunkfile outputfile items n.config)
    (hMove : Move env call n m) :
    Wants chunkfile outputfile items m.config := by
  cases hMove with
  | get hGet =>
      cases hGet with
      | dropped _ =>
          exact ⟨h.getChunkFile, h.outputFile, h.numChunks,
            .inl rfl⟩
      | _ => exact h
  | gaveUp _ cur r chunk packets now _ _ _ _ =>
      exact h.same (.ofChunk r _ rfl fun _ => rfl) rfl rfl rfl
        rfl
  | fetched _ p q r chunk _ _ _ _ _ _ _ =>
      exact h.same (.ofChunk r _ rfl fun _ => rfl) rfl rfl rfl
        rfl
  | announced _ r p _ _ =>
      exact h.same (.ofChunk r _ rfl fun _ => rfl) rfl rfl rfl
        rfl
  | loaded => exact absurd rfl hCall
  | _ => exact h.same (fun _ => rfl) rfl rfl rfl rfl

/- DATA renames no file. -/
theorem filled_names
    {env : Env}
    {packet : Packet}
    (p q : PeerRef)
    (r : ChunkRef)
    (chunk : BtChunk)
    (nodes : List BtPacket) :
    (n.filled env packet p q r chunk
          nodes).config.getChunkFile = n.config.getChunkFile ∧
      (n.filled env packet p q r chunk
          nodes).config.outputFile = n.config.outputFile := by
  simp [Node.filled, Node.release, Node.keep, Node.heard,
    BtConfig.heardData]

theorem names_data
    {src : Addr}
    {packet : Packet}
    {ack : Option Int}
    {counted : Bool}
    (hStep : DataStep env src packet n ack counted m) :
    m.config.getChunkFile = n.config.getChunkFile ∧
      m.config.outputFile = n.config.outputFile := by
  cases hStep with
  | ignored _ => exact ⟨rfl, rfl⟩
  | refused p r _ _ => exact ⟨rfl, rfl⟩
  | stored p r chunk nodes _ _ => exact ⟨rfl, rfl⟩
  | stopped p q r chunk nodes g f _ _ =>
      rw [Node.onFiles_config]
      exact filled_names p q r chunk nodes
  | rejected p q r chunk nodes _ _ =>
      rw [Node.emit_config]
      exact filled_names p q r chunk nodes
  | unrecorded p q r chunk nodes _ _ _ =>
      rw [Node.emit_config]
      exact filled_names p q r chunk nodes
  | recorded p q r chunk nodes id _ _ _ _ =>
      unfold Node.recorded
      simp only [Node.onConfig_config, Node.onFiles_config,
        BtConfig.markDownloaded_getChunkFile,
        BtConfig.markDownloaded_outputFile,
        BtConfig.setChunk_getChunkFile,
        BtConfig.setChunk_outputFile]
      exact filled_names p q r chunk nodes

theorem Wants.data
    {src : Addr}
    {packet : Packet}
    {ack : Option Int}
    {counted : Bool}
    (h : Wants chunkfile outputfile items n.config)
    (hStep : DataStep env src packet n ack counted m) :
    Wants chunkfile outputfile items m.config :=
  h.same (SameItems.data hStep) (download_data hStep).1
    (download_data hStep).2 (names_data hStep).1
    (names_data hStep).2

theorem WantsSince.same
    (h : WantsSince chunkfile outputfile items n m)
    (hConfig : Wants chunkfile outputfile items k.config)
    (hTrace : finishes k.trace = finishes m.trace) :
    WantsSince chunkfile outputfile items n k where
  config := hConfig
  entered := by
    rw [hTrace]
    exact h.entered

theorem WantsSince.move
    (hCall : call ≠ .userGet)
    (h : WantsSince chunkfile outputfile items n m)
    (hMove : Move env call m k) :
    WantsSince chunkfile outputfile items n k := by
  have hConfig := h.config.move hCall hMove
  cases hMove with
  | get hGet =>
      cases hGet with
      | entered _ =>
          rcases h.entered with ⟨new, hNew, hAll⟩
          refine ⟨hConfig, new ++ [(m.config, m.files)], ?_, ?_⟩
          · rw [← List.append_assoc, ← hNew]
            simp [finishes]
          · intro entry hEntry
            rcases List.mem_append.mp hEntry with hOld | hLast
            · exact hAll entry hOld
            · rw [List.mem_singleton.mp hLast]
              exact h.config
      | files g => exact h.same hConfig rfl
      | got => exact h.same hConfig (finishes_append rfl)
      | dropped _ => exact h.same hConfig rfl
  | fetched => exact h.same hConfig (finishes_append rfl)
  | _ => exact h.same hConfig rfl

theorem wantsSince_closed
    (hCall : call ≠ .userGet) :
    Closed env call
      (WantsSince chunkfile outputfile items n) where
  move := fun _ _ h hMove => h.move hCall hMove
  load := fun _ _ _ _ hGet => absurd hGet hCall
  raise := fun _ h =>
    h.same (h.config.same (fun _ => rfl) rfl rfl rfl rfl) rfl
  halt := fun _ _ h => h.same h.config rfl

theorem WantsSince.data
    {src : Addr}
    {packet : Packet}
    {ack : Option Int}
    {counted : Bool}
    (h : WantsSince chunkfile outputfile items n m)
    (hStep : DataStep env src packet m ack counted k) :
    WantsSince chunkfile outputfile items n k := by
  have hFinish :
      ∀ r packets,
        finishes (m.trace ++ [.finishChunk r packets]) =
          finishes m.trace :=
    fun _ _ => finishes_append rfl
  apply h.same (h.config.data hStep)
  cases hStep with
  | ignored _ => rfl
  | refused p r _ _ => rfl
  | stored p r chunk nodes _ _ => rfl
  | stopped p q r chunk nodes g f _ _ => exact hFinish _ _
  | rejected p q r chunk nodes _ _ =>
      exact (finishes_append rfl).trans (hFinish _ _)
  | unrecorded p q r chunk nodes _ _ _ =>
      exact (finishes_append rfl).trans (hFinish _ _)
  | recorded p q r chunk nodes id _ _ _ _ =>
      exact hFinish _ _

theorem WantsSince.step_data
    (h : WantsSince chunkfile outputfile items n m)
    (src : Addr)
    (packet : Packet) :
    WantsSince chunkfile outputfile items n
      (m.step env (.data src packet)) := by
  have hClosed :
      Closed env .ihave
        (WantsSince chunkfile outputfile items n) :=
    wantsSince_closed nofun
  cases hRun : m.fault with
  | some f =>
      rw [step_of_fault _ _ hRun]
      exact h
  | none =>
      rcases step_data_cases env src packet hRun with
        hData | ⟨f, k, hLost, hEnd⟩
      · exact hClosed.dataRun
          (fun _ _ h => h.same h.config rfl)
          (fun _ _ _ hStep => h.data hStep) hData
      · rw [hEnd]
        apply hClosed.halt
        rcases hLost with
          ⟨p, r, _, _, rfl⟩ |
          ⟨p, r, chunk, nodes, hTaking, _, rfl⟩
        · exact h.same
            (h.config.same (fun _ => rfl) rfl rfl rfl rfl) rfl
        · exact h.same
            (h.config.same (SameItems.stored hTaking) rfl rfl
              rfl rfl)
            (finishes_append rfl)

theorem WantsSince.step
    (h : WantsSince chunkfile outputfile items n m)
    (hSame : SameGet m e) :
    WantsSince chunkfile outputfile items n (m.step env e) := by
  by_cases hReceives : e.receives
  · have hCall : callOf e ≠ .userGet := by
      cases e with
      | userGet _ _ => exact hSame.elim
      | _ => exact nofun
    apply (wantsSince_closed hCall).step hReceives _ h
    rintro src packet rfl
    exact h.step_data src packet
  · rcases step_serves env m hReceives with
      ⟨k, ⟨_, _, _, rfl⟩, hEnd | ⟨f, hEnd⟩⟩
    · rw [hEnd]
      exact h.same
        (h.config.same (fun _ => rfl) rfl rfl rfl rfl) rfl
    · rw [hEnd]
      exact h.same
        (h.config.same (fun _ => rfl) rfl rfl rfl rfl) rfl

/- The lines are read one by one, or a fault stops the loop. -/
theorem addChunks_items
    (env : Env)
    (ended : Bool)
    (lines : List ChunkLine)
    {fuel : Nat}
    {buf : Bytes}
    (hFuel : lines.length < fuel)
    (n : Node) :
    wp (addChunks env fuel (linesText ended lines) buf)
      (fun _ m => ∃ read : List Item,
        read.map (fun item => (item.id, item.hash)) =
            lines.map (fun line => (line.stored, line.hash)) ∧
          m = n.onConfig (List.foldl BtConfig.addItem · read))
      (fun _ m => m.trace = n.trace) n := by
  induction lines generalizing fuel buf n with
  | nil =>
      have hBlank :
          scanIntWord (linesText ended []) = .eof := by
        cases ended <;> rfl
      cases fuel with
      | zero => omega
      | succ fuel =>
          unfold addChunks
          rw [hBlank]
          exact ⟨[], rfl, rfl⟩
  | cons line lines ih =>
      rw [List.length_cons] at hFuel
      cases fuel with
      | zero => omega
      | succ fuel =>
          have hEnd := wordEnd_linesText ended lines
          have hStore := line.store buf
          rw [linesText, addChunks_space]
          unfold addChunks
          rw [line.scan hEnd]
          dsimp only
          rw [wp_bind, wp_lift, hStore.1]
          refine ⟨fun buf' hBuf => ?_, fun f hf => by cases hf⟩
          cases hBuf
          unfold addReceiverList
          rw [wp_bind, wp_bind, wp_get, wp_bind, wp_lift]
          constructor
          · intro owned _
            apply wp_mono (ih (by omega) _)
            · rintro _ m ⟨read, hItems, rfl⟩
              refine
                ⟨⟨hex2binary (line.hex ++ 0 :: buf.drop 41),
                  line.stored, decide (owned ≠ -1)⟩ :: read,
                  ?_, rfl⟩
              rw [List.map_cons, List.map_cons, hItems,
                hStore.2]
            · exact fun _ _ h => h
          · exact fun _ _ => rfl

/- The GET itself, or it stops at a fault in its list. -/
theorem wantsSince_userGet
    (env : Env)
    {chunkfile : Path}
    (outputfile : Path)
    {ended : Bool}
    {lines : List ChunkLine}
    (hNone : n.config.download = [])
    (hFile :
      n.files.content chunkfile = some (listText ended lines)) :
    let m := n.step env (.userGet chunkfile outputfile)
    WantsSince chunkfile outputfile
        (lines.map fun line => (line.stored, line.hash)) n m ∨
      m.fault ≠ none ∧ m.trace = n.trace := by
  have hClosed :
      Closed env .ihave
        (WantsSince chunkfile outputfile
          (lines.map fun line => (line.stored, line.hash))
          n) :=
    wantsSince_closed nofun
  have hLoaded :
      ∀ read : List Item,
        read.map (fun item => (item.id, item.hash)) =
            lines.map (fun line => (line.stored, line.hash)) →
          WantsSince chunkfile outputfile
            (lines.map fun line => (line.stored, line.hash)) n
            (n.onConfig
              (BtConfig.load chunkfile outputfile read)) := by
    intro read hItems
    refine ⟨?_, [], (List.append_nil _).symm, nofun⟩
    rw [← hItems]
    exact wants_load hNone chunkfile outputfile read
  have hLoop :
      wp (addChunks env ((listText ended lines).length + 1)
          (listText ended lines) (textBuffer env))
        (fun _ k => WantsSince chunkfile outputfile
          (lines.map fun line => (line.stored, line.hash))
          n k)
        (fun _ k => k.trace = n.trace)
        (n.onConfig
          (BtConfig.startGet chunkfile outputfile)) := by
    cases lines with
    | nil => exact hLoaded [] rfl
    | cons line lines =>
        have hFew := length_listText ended (line :: lines)
        rw [← addChunks_space,
          listText_cons ended (List.cons_ne_nil _ _)]
        apply wp_mono
          (addChunks_items env ended _ (by omega) _)
        · rintro _ k ⟨read, hItems, rfl⟩
          exact hLoaded read hItems
        · exact fun _ _ h => h
  intro m
  apply Node.exec_of_wp
    (P := fun m =>
      WantsSince chunkfile outputfile
          (lines.map fun line => (line.stored, line.hash)) n
          m ∨
        m.fault ≠ none ∧ m.trace = n.trace)
  · unfold handle processUserGet
    rw [wp_bind, wp_get, hFile]
    dsimp only
    rw [wp_bind, wp_modify, wp_bind]
    apply wp_mono hLoop
    · intro _ k hk
      rw [wp_bind]
      apply wp_mono
        (hClosed.wp (sendWhohas_leads env .ihave k) hk)
      · intro _ l hl
        rw [wp_bind, wp_get, wp_ite]
        refine ⟨fun hAll => ?_, fun _ => .inl hl⟩
        apply wp_mono
          (hClosed.wp (finishGet_leads env .ihave hAll) hl)
        · exact fun _ _ h => .inl h
        · exact fun _ _ h => .inl h
      · exact fun _ _ h => .inl h
    · exact fun f k hTrace => .inr ⟨nofun, hTrace⟩
  · intro hFault
    refine .inr ⟨?_, rfl⟩
    rw [← Option.isSome_iff_ne_none]
    exact hFault

/-
  Every entry to `finish_get` between a GET and the next one
  is on the items of its chunk file.
-/
theorem wants_of_run
    {ended : Bool}
    {lines : List ChunkLine}
    (hNone : n.config.download = [])
    (hFile :
      n.files.content chunkfile = some (listText ended lines))
    (hRun :
      Reaches (Node.step env) SameGet
        (n.step env (.userGet chunkfile outputfile)) m)
    {entry : BtConfig × Files}
    (hEntry : entry ∈ entries n m) :
    Wants chunkfile outputfile
      (lines.map fun line => (line.stored, line.hash))
      entry.1 := by
  have hInvariant :
      WantsSince chunkfile outputfile
          (lines.map fun line => (line.stored, line.hash)) n
          m ∨
        m.fault ≠ none ∧ m.trace = n.trace := by
    apply hRun.invariant
      (wantsSince_userGet env outputfile hNone hFile)
    rintro k e (hWants | ⟨hFault, hTrace⟩) hSame
    · exact .inl (hWants.step hSame)
    · right
      rcases Option.ne_none_iff_exists'.mp hFault with
        ⟨f, hFault'⟩
      rw [step_of_fault _ _ hFault']
      exact ⟨hFault, hTrace⟩
  rcases hInvariant with hWants | ⟨_, hTrace⟩
  · rcases hWants.entered with ⟨new, hNew, hAll⟩
    unfold entries at hEntry
    rw [hNew, List.drop_left] at hEntry
    exact hAll entry hEntry
  · rw [entries_nil (congrArg finishes hTrace)] at hEntry
    cases hEntry

end

end PeerNet
