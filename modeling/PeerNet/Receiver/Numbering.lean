import PeerNet.Lookup.ChunkList
import PeerNet.Receiver.Frame
import PeerNet.Receiver.Gets
import PeerNet.Receiver.Output

/-
  The numbers under which `finish_get` looks chunks up.

  `process_user_get` takes an id from every line of the chunk
  list as it stands there. `finish_get` asks for the ids 0,
  1, 2 and so on, as many as lines were counted, so it finds
  every chunk only if these are the ids of the file.

  Main declarations:
    * `ListedFrom`
    * `addChunks_lines`
    * `listing_of_run`
    * `FindsEvery`
    * `finds_every_iff`
-/

------------------------------------------------------------
-- The Nodes of a Chunk List
------------------------------------------------------------

namespace PeerNet

/-
  The download list of a GET that found `old` nodes in it and
  read these ids from its file, unless the list was freed.
-/
structure ListedFrom
    (old : Nat)
    (ids : List Int)
    (c : BtConfig) : Prop where
  numChunks : c.numChunks = ids.length
  nodes : c.download = [] ∨
    c.download.length = old + ids.length ∧
      (old = 0 → (downloadChunks c).map BtChunk.id = ids)

section

variable {env : Env} {call : Call} {n m : Node}
variable {old : Nat} {ids : List Int} {c c' : BtConfig}
variable {src : Addr} {packet : Packet}
variable {ack : Option Int} {counted : Bool}

theorem ListedFrom.same
    (h : ListedFrom old ids c)
    (hItems : SameItems c c')
    (hList : c'.download = c.download)
    (hCount : c'.numChunks = c.numChunks) :
    ListedFrom old ids c' where
  numChunks := hCount.trans h.numChunks
  nodes := by
    have hIds :
        (downloadChunks c').map BtChunk.id =
          (downloadChunks c).map BtChunk.id := by
      have hFirst :=
        congrArg (List.map Prod.fst)
          (hItems.downloadChunks hList)
      rwa [List.map_map, List.map_map] at hFirst
    rw [hList, hIds]
    exact h.nodes

/- The nodes of the file behind those that were there. -/
theorem listedFrom_load
    (chunkfile outputfile : Path)
    (items : List Item) :
    ListedFrom c.download.length (items.map Item.id)
      (c.load chunkfile outputfile items) := by
  -- every item adds a node, and counts it
  have hCounted :
      ∀ (items : List Item) (c : BtConfig),
        (items.foldl BtConfig.addItem c).numChunks =
            c.numChunks + items.length ∧
          (items.foldl BtConfig.addItem c).download.length =
            c.download.length + items.length := by
    intro items
    induction items with
    | nil => exact fun c => ⟨by simp, rfl⟩
    | cons item items ih =>
        intro c
        have hNodes :
            (c.addItem item).download.length =
              c.download.length + 1 := by
          simp [BtConfig.addItem]
        have hCount :
            (c.addItem item).numChunks = c.numChunks + 1 :=
          rfl
        rcases ih (c.addItem item) with ⟨hChunks, hList⟩
        rw [List.foldl_cons, hChunks, hList, hNodes, hCount,
          List.length_cons]
        exact ⟨by push_cast; omega, by omega⟩
  -- into an empty list, under its id
  have hNumbered :
      ∀ (items : List Item) (c : BtConfig),
        (∀ r ∈ c.download, r < c.nextChunk) →
          (downloadChunks
              (items.foldl BtConfig.addItem c)).map
                BtChunk.id =
            (downloadChunks c).map BtChunk.id ++
              items.map Item.id := by
    intro items
    induction items with
    | nil => simp
    | cons item items ih =>
        intro c hFresh
        have hNext :
            (c.addItem item).nextChunk = c.nextChunk + 1 :=
          rfl
        have hLower :
            ∀ r ∈ (c.addItem item).download,
              r < (c.addItem item).nextChunk := by
          intro r hr
          rw [hNext]
          rcases List.mem_append.mp hr with hOld | hNew
          · exact Nat.lt_succ_of_lt (hFresh r hOld)
          · rw [List.mem_singleton.mp hNew]
            exact Nat.lt_succ_self _
        have hAdded :=
          downloadChunks_addItem
            (fun hMem => Nat.lt_irrefl _ (hFresh _ hMem))
            item
        rw [List.foldl_cons, ih _ hLower, hAdded]
        simp [Item.chunk]
  rcases hCounted items (c.startGet chunkfile outputfile) with
    ⟨hChunks, hList⟩
  refine ⟨?_, .inr ⟨?_, ?_⟩⟩
  · unfold BtConfig.load
    rw [hChunks]
    simp
  · unfold BtConfig.load
    rw [hList]
    simp
  · intro hOld
    have hEmpty : c.download = [] :=
      List.eq_nil_of_length_eq_zero hOld
    unfold BtConfig.load
    rw [hNumbered]
    · simp [downloadChunks, hEmpty]
    · simp [hEmpty]

/- No call but a user GET changes the nodes of the list. -/
theorem ListedFrom.move
    (hCall : call ≠ .userGet)
    (h : ListedFrom old ids n.config)
    (hMove : Move env call n m) :
    ListedFrom old ids m.config := by
  cases hMove with
  | get hGet =>
      cases hGet with
      | dropped _ => exact ⟨h.numChunks, .inl rfl⟩
      | _ => exact h
  | gaveUp _ cur r chunk packets now _ _ _ _ =>
      exact h.same (.ofChunk r _ rfl fun _ => rfl) rfl rfl
  | fetched _ p q r chunk _ _ _ _ _ _ _ =>
      exact h.same (.ofChunk r _ rfl fun _ => rfl) rfl rfl
  | announced _ r p _ _ =>
      exact h.same (.ofChunk r _ rfl fun _ => rfl) rfl rfl
  | loaded => exact absurd rfl hCall
  | _ => exact h.same (fun _ => rfl) rfl rfl

/- DATA adds no node to the list, and takes none off it. -/
theorem filled_list
    (p q : PeerRef)
    (r : ChunkRef)
    (chunk : BtChunk)
    (nodes : List BtPacket) :
    (n.filled env packet p q r chunk nodes).config.download =
        n.config.download ∧
      (n.filled env packet p q r chunk
          nodes).config.numChunks =
        n.config.numChunks := by
  refine ⟨filled_download, ?_⟩
  simp [Node.filled, Node.release, Node.keep, Node.heard,
    BtConfig.heardData]

theorem download_data
    (hStep : DataStep env src packet n ack counted m) :
    m.config.download = n.config.download ∧
      m.config.numChunks = n.config.numChunks := by
  cases hStep with
  | ignored _ => exact ⟨rfl, rfl⟩
  | refused p r _ _ => exact ⟨rfl, rfl⟩
  | stored p r chunk nodes _ _ => exact ⟨rfl, rfl⟩
  | stopped p q r chunk nodes g f _ _ =>
      rw [Node.onFiles_config]
      exact filled_list p q r chunk nodes
  | rejected p q r chunk nodes _ _ =>
      rw [Node.emit_config]
      exact filled_list p q r chunk nodes
  | unrecorded p q r chunk nodes _ _ _ =>
      rw [Node.emit_config]
      exact filled_list p q r chunk nodes
  | recorded p q r chunk nodes id _ _ _ _ =>
      unfold Node.recorded
      simp only [Node.onConfig_config, Node.onFiles_config,
        BtConfig.markDownloaded_download,
        BtConfig.markDownloaded_numChunks,
        BtConfig.setChunk_download,
        BtConfig.setChunk_numChunks]
      exact filled_list p q r chunk nodes

theorem ListedFrom.data
    (h : ListedFrom old ids n.config)
    (hStep : DataStep env src packet n ack counted m) :
    ListedFrom old ids m.config :=
  h.same (SameItems.data hStep) (download_data hStep).1
    (download_data hStep).2

end

end PeerNet

------------------------------------------------------------
-- Reading the Chunk List
------------------------------------------------------------

namespace PeerNet

open Prog Scanf

section

variable {env : Env} {ended : Bool} {lines : List ChunkLine}
variable {fuel : Nat} {buf : Bytes}

/- White space in front of an item is skipped. -/
theorem addChunks_space
    (env : Env)
    (fuel : Nat)
    (input buf : Bytes) :
    addChunks env fuel (10 :: input) buf =
      addChunks env fuel input buf := by
  have hSpace : isSpace 10 = true := by decide
  cases fuel with
  | zero => rfl
  | succ fuel =>
      unfold addChunks
      rw [scanIntWord_space hSpace]

/- Each line gives an item, or the loop stops at a fault. -/
theorem addChunks_lines
    (env : Env)
    (ended : Bool)
    (lines : List ChunkLine)
    (hFuel : lines.length < fuel)
    (n : Node) :
    wp (addChunks env fuel (linesText ended lines) buf)
      (fun _ m => ∃ items : List Item,
        items.map Item.id = lines.map ChunkLine.stored ∧
          m = n.onConfig (List.foldl BtConfig.addItem · items))
      (fun _ m => m.trace = n.trace) n := by
  induction lines generalizing fuel buf n with
  | nil =>
      have hBlank :
          scanIntWord (linesText ended []) = .eof := by
        cases ended <;> rfl
      cases fuel with
      | zero => omega
      | succ fuel =>
          unfold addChunks
          rw [hBlank]
          exact ⟨[], rfl, rfl⟩
  | cons line lines ih =>
      rw [List.length_cons] at hFuel
      cases fuel with
      | zero => omega
      | succ fuel =>
          have hEnd := wordEnd_linesText ended lines
          rw [linesText, addChunks_space]
          unfold addChunks
          rw [line.scan hEnd]
          dsimp only
          rw [wp_bind, wp_lift, (line.store buf).1]
          refine ⟨fun buf' hBuf => ?_, fun f hf => by cases hf⟩
          cases hBuf
          unfold addReceiverList
          rw [wp_bind, wp_bind, wp_get, wp_bind, wp_lift]
          constructor
          · intro owned _
            apply wp_mono (ih (by omega) _)
            · rintro _ m ⟨items, hIds, rfl⟩
              refine
                ⟨⟨hex2binary (line.hex ++ 0 :: buf.drop 41),
                  line.stored, decide (owned ≠ -1)⟩ :: items,
                  ?_, rfl⟩
              rw [List.map_cons, List.map_cons, hIds]
            · exact fun _ _ h => h
          · exact fun _ _ => rfl

end

end PeerNet

------------------------------------------------------------
-- The Run of a GET
------------------------------------------------------------

namespace PeerNet

open Prog Runs

/-
  The list is as the GET left it, and was so whenever
  `finish_get` was entered since `n`.
-/
structure Listing
    (n : Node)
    (old : Nat)
    (ids : List Int)
    (m : Node) : Prop where
  config : ListedFrom old ids m.config
  entered : ∃ new, finishes m.trace = finishes n.trace ++ new ∧
    ∀ entry ∈ new, ListedFrom old ids entry.1

/- Or the GET has stopped at a fault in its chunk list. -/
def Begun
    (n : Node)
    (old : Nat)
    (ids : List Int)
    (m : Node) : Prop :=
  Listing n old ids m ∨
    m.fault ≠ none ∧ m.trace = n.trace

/- No other GET comes. -/
def SameGet
    (_ : Node) : NodeEvent → Prop
| .userGet _ _ => False
| _ => True

section

variable {env : Env} {call : Call} {n m k : Node}
variable {old : Nat} {ids : List Int} {e : NodeEvent}

theorem Listing.same
    (h : Listing n old ids m)
    (hConfig : ListedFrom old ids k.config)
    (hTrace : finishes k.trace = finishes m.trace) :
    Listing n old ids k where
  config := hConfig
  entered := by
    rw [hTrace]
    exact h.entered

/- An event that is no entry to `finish_get`. -/
theorem finishes_append
    {trace : List Event}
    {event : Event}
    (hOther : finishes [event] = []) :
    finishes (trace ++ [event]) = finishes trace := by
  unfold finishes at hOther ⊢
  rw [List.filterMap_append, hOther, List.append_nil]

theorem Listing.move
    (hCall : call ≠ .userGet)
    (h : Listing n old ids m)
    (hMove : Move env call m k) :
    Listing n old ids k := by
  have hConfig := h.config.move hCall hMove
  cases hMove with
  | get hGet =>
      cases hGet with
      | entered _ =>
          rcases h.entered with ⟨new, hNew, hAll⟩
          refine ⟨hConfig, new ++ [(m.config, m.files)], ?_, ?_⟩
          · rw [← List.append_assoc, ← hNew]
            simp [finishes]
          · intro entry hEntry
            rcases List.mem_append.mp hEntry with hOld | hLast
            · exact hAll entry hOld
            · rw [List.mem_singleton.mp hLast]
              exact h.config
      | files g => exact h.same hConfig rfl
      | got => exact h.same hConfig (finishes_append rfl)
      | dropped _ => exact h.same hConfig rfl
  | fetched => exact h.same hConfig (finishes_append rfl)
  | _ => exact h.same hConfig rfl

theorem listing_closed
    (hCall : call ≠ .userGet) :
    Closed env call (Listing n old ids) where
  move := fun _ _ h hMove => h.move hCall hMove
  load := fun _ _ _ _ hGet => absurd hGet hCall
  raise := fun _ h =>
    h.same (h.config.same (fun _ => rfl) rfl rfl) rfl
  halt := fun _ _ h => h.same h.config rfl

/- DATA enters `finish_get` only after its chunk. -/
theorem Listing.data
    {src : Addr}
    {packet : Packet}
    {ack : Option Int}
    {counted : Bool}
    (h : Listing n old ids m)
    (hStep : DataStep env src packet m ack counted k) :
    Listing n old ids k := by
  have hFinish :
      ∀ r packets,
        finishes (m.trace ++ [.finishChunk r packets]) =
          finishes m.trace :=
    fun _ _ => finishes_append rfl
  apply h.same (h.config.data hStep)
  cases hStep with
  | ignored _ => rfl
  | refused p r _ _ => rfl
  | stored p r chunk nodes _ _ => rfl
  | stopped p q r chunk nodes g f _ _ => exact hFinish _ _
  | rejected p q r chunk nodes _ _ =>
      exact (finishes_append rfl).trans (hFinish _ _)
  | unrecorded p q r chunk nodes _ _ _ =>
      exact (finishes_append rfl).trans (hFinish _ _)
  | recorded p q r chunk nodes id _ _ _ _ =>
      exact hFinish _ _

theorem Listing.step_data
    (h : Listing n old ids m)
    (src : Addr)
    (packet : Packet) :
    Listing n old ids (m.step env (.data src packet)) := by
  have hClosed : Closed env .ihave (Listing n old ids) :=
    listing_closed nofun
  cases hRun : m.fault with
  | some f =>
      rw [step_of_fault _ _ hRun]
      exact h
  | none =>
      rcases step_data_cases env src packet hRun with
        hData | ⟨f, k, hLost, hEnd⟩
      · exact hClosed.dataRun
          (fun _ _ h => h.same h.config rfl)
          (fun _ _ _ hStep => h.data hStep) hData
      · rw [hEnd]
        apply hClosed.halt
        rcases hLost with
          ⟨p, r, _, _, rfl⟩ |
          ⟨p, r, chunk, nodes, hTaking, _, rfl⟩
        · exact h.same
            (h.config.same (fun _ => rfl) rfl rfl) rfl
        · exact h.same
            (h.config.same (SameItems.stored hTaking) rfl rfl)
            (finishes_append rfl)

theorem Listing.step
    (h : Listing n old ids m)
    (hSame : SameGet m e) :
    Listing n old ids (m.step env e) := by
  by_cases hReceives : e.receives
  · have hCall : callOf e ≠ .userGet := by
      cases e with
      | userGet _ _ => exact hSame.elim
      | _ => exact nofun
    apply (listing_closed hCall).step hReceives _ h
    rintro src packet rfl
    exact h.step_data src packet
  · rcases step_serves env m hReceives with
      ⟨k, ⟨_, _, _, rfl⟩, hEnd | ⟨f, hEnd⟩⟩
    · rw [hEnd]
      exact h.same (h.config.same (fun _ => rfl) rfl rfl) rfl
    · rw [hEnd]
      exact h.same (h.config.same (fun _ => rfl) rfl rfl) rfl

/- The GET itself. -/
theorem begun_userGet
    (env : Env)
    {chunkfile : Path}
    (outputfile : Path)
    {ended : Bool}
    {lines : List ChunkLine}
    (hFile :
      n.files.content chunkfile = some (listText ended lines)) :
    Begun n n.config.download.length
      (lines.map ChunkLine.stored)
      (n.step env (.userGet chunkfile outputfile)) := by
  have hClosed :
      Closed env .ihave
        (Listing n n.config.download.length
          (lines.map ChunkLine.stored)) :=
    listing_closed nofun
  have hLoaded :
      ∀ items : List Item,
        items.map Item.id = lines.map ChunkLine.stored →
          Listing n n.config.download.length
            (lines.map ChunkLine.stored)
            (n.onConfig
              (BtConfig.load chunkfile outputfile items)) := by
    intro items hIds
    refine ⟨?_, [], (List.append_nil _).symm, nofun⟩
    rw [← hIds]
    exact listedFrom_load chunkfile outputfile items
  have hLoop :
      wp (addChunks env ((listText ended lines).length + 1)
          (listText ended lines) (textBuffer env))
        (fun _ k => Listing n n.config.download.length
          (lines.map ChunkLine.stored) k)
        (fun _ k => k.trace = n.trace)
        (n.onConfig
          (BtConfig.startGet chunkfile outputfile)) := by
    cases lines with
    | nil => exact hLoaded [] rfl
    | cons line lines =>
        have hFew := length_listText ended (line :: lines)
        rw [← addChunks_space,
          listText_cons ended (List.cons_ne_nil _ _)]
        apply wp_mono
          (addChunks_lines env ended _ (by omega) _)
        · rintro _ k ⟨items, hIds, rfl⟩
          exact hLoaded items hIds
        · exact fun _ _ h => h
  unfold Node.step handle
  apply Node.exec_of_wp
    (P := Begun n n.config.download.length
      (lines.map ChunkLine.stored))
  · unfold processUserGet
    rw [wp_bind, wp_get, hFile]
    dsimp only
    rw [wp_bind, wp_modify, wp_bind]
    apply wp_mono hLoop
    · intro _ k hk
      rw [wp_bind]
      apply wp_mono
        (hClosed.wp (sendWhohas_leads env .ihave k) hk)
      · intro _ l hl
        rw [wp_bind, wp_get, wp_ite]
        refine ⟨fun hAll => ?_, fun _ => .inl hl⟩
        apply wp_mono
          (hClosed.wp (finishGet_leads env .ihave hAll) hl)
        · exact fun _ _ h => .inl h
        · exact fun _ _ h => .inl h
      · exact fun _ _ h => .inl h
    · exact fun f k hTrace => .inr ⟨nofun, hTrace⟩
  · intro hFault
    refine .inr ⟨?_, rfl⟩
    rw [← Option.isSome_iff_ne_none]
    exact hFault

/- So it is until the next GET. -/
theorem listing_of_run
    {chunkfile outputfile : Path}
    {ended : Bool}
    {lines : List ChunkLine}
    (hFile :
      n.files.content chunkfile = some (listText ended lines))
    (hRun :
      Reaches (Node.step env) SameGet
        (n.step env (.userGet chunkfile outputfile)) m) :
    ∀ entry ∈ entries n m,
      ListedFrom n.config.download.length
        (lines.map ChunkLine.stored) entry.1 := by
  have hInvariant :
      Begun n n.config.download.length
        (lines.map ChunkLine.stored) m := by
    apply hRun.invariant (begun_userGet env outputfile hFile)
    rintro k e (hListing | ⟨hFault, hTrace⟩) hSame
    · exact .inl (hListing.step hSame)
    · right
      rcases Option.ne_none_iff_exists'.mp hFault with
        ⟨f, hFault'⟩
      rw [step_of_fault _ _ hFault']
      exact ⟨hFault, hTrace⟩
  rcases hInvariant with hListing | ⟨_, hTrace⟩
  · rcases hListing.entered with ⟨new, hNew, hAll⟩
    unfold entries
    rw [hNew, List.drop_left]
    exact hAll
  · rw [entries_nil (congrArg finishes hTrace)]
    nofun

end

end PeerNet

------------------------------------------------------------
-- The Lookups
------------------------------------------------------------

namespace PeerNet

open FirstMatch Runs

/-
  Every node of the list is there with bytes for the output
  file, whatever was written to it before.
-/
structure Available
    (env : Env)
    (config : BtConfig)
    (files : Files) : Prop where
  chunks : ∀ r ∈ config.download, ∃ chunk,
    config.chunk r = some chunk ∧
      ∀ pre, ∃ bytes,
        Piece env config
          (files.write config.outputFile pre) chunk bytes

/-
  `finish_get` gets to its loop, each round looks a node up
  that is there, every node of the list is looked up once,
  by increasing ids, and the loop writes their bytes.
-/
structure FindsEvery
    (env : Env)
    (config : BtConfig)
    (files : Files)
    (chunks : List BtChunk)
    (pieces : List Bytes) : Prop where
  opens : files.writable config.outputFile = true
  present :
    (List.range config.numChunks.toNat).map
        (fun i => chunkWithId (i : Nat) config) =
      chunks.map some
  each : chunks.Perm (downloadChunks config)
  order : (chunks.map BtChunk.id).Pairwise (· < ·)
  lengths : pieces.length = chunks.length
  wrote : Wrote env config files 0 [] pieces
  ends : ∀ n : Node, n.config = config → n.files = files →
    finishGetLoop env config.numChunks.toNat 0 n.atLoop =
      .ok true
        { n.atLoop with
          files :=
            files.write config.outputFile pieces.flatten }

/- The numbers that are looked up. -/
def lookedUp
    (count : Nat) : List Int :=
  (List.range count).map Int.ofNat

section

variable {env : Env} {config : BtConfig} {files : Files}
variable {chunks : List BtChunk} {n m : Node}
variable {ids : List Int} {old : Nat}

theorem lookedUp_pairwise
    (count : Nat) :
    (lookedUp count).Pairwise (· < ·) := by
  unfold lookedUp
  rw [List.pairwise_map]
  exact List.pairwise_lt_range.imp Int.ofNat_lt.mpr

/- There are bytes for chunks that are found. -/
theorem Available.pieces
    (h : Available env config files)
    (i : Nat)
    (pre : Bytes)
    (hFound : ∀ k chunk, chunks[k]? = some chunk →
      chunkWithId ((i + k : Nat) : Int) config =
        some chunk) :
    ∃ pieces : List Bytes, pieces.length = chunks.length ∧
      Wrote env config files i pre pieces := by
  induction chunks generalizing i pre with
  | nil => exact ⟨[], rfl, trivial⟩
  | cons chunk chunks ih =>
      have hFirst := hFound 0 chunk rfl
      rcases List.mem_filterMap.mp
          (List.mem_of_find?_eq_some hFirst) with
        ⟨r, hListed, hLive⟩
      rcases h.chunks r hListed with ⟨chunk', hLive', hPiece⟩
      rw [hLive] at hLive'
      cases hLive'
      rcases hPiece pre with ⟨bytes, hBytes⟩
      have hRest :
          ∀ k chunk', chunks[k]? = some chunk' →
            chunkWithId ((i + 1 + k : Nat) : Int) config =
              some chunk' := by
        intro k chunk' hAt
        have hNext := hFound (k + 1) chunk' hAt
        rwa [← Nat.add_assoc, Nat.add_right_comm] at hNext
      rcases ih (i + 1) (pre ++ bytes) hRest with
        ⟨pieces, hLength, hWrote⟩
      refine ⟨bytes :: pieces, ?_, ⟨chunk, hFirst, hBytes⟩,
        hWrote⟩
      rw [List.length_cons, List.length_cons, hLength]

/- A list without dangling pointers. -/
theorem Available.length
    (h : Available env config files) :
    (downloadChunks config).length =
      config.download.length := by
  unfold downloadChunks
  rw [List.length_filterMap_eq_countP,
    List.countP_eq_length]
  intro r hr
  rcases h.chunks r hr with ⟨chunk, hLive, -⟩
  rw [hLive]
  rfl

/-
  Every node is found if and only if the output file opens
  and the ids of the list are the numbers looked up.
-/
theorem Available.finds_iff
    (h : Available env config files) :
    (∃ chunks pieces,
        FindsEvery env config files chunks pieces) ↔
      files.writable config.outputFile = true ∧
        ((downloadChunks config).map BtChunk.id).Perm
          (lookedUp config.numChunks.toNat) := by
  have hSlots :
      (lookedUp config.numChunks.toNat).map
          (slot BtChunk.id (downloadChunks config)) =
        (List.range config.numChunks.toNat).map
          (fun i => chunkWithId (i : Nat) config) := by
    unfold lookedUp
    rw [List.map_map]
    rfl
  have hOrder := lookedUp_pairwise config.numChunks.toNat
  have hKeys : (lookedUp config.numChunks.toNat).Nodup :=
    hOrder.imp ne_of_lt
  rw [← slots_found_iff hKeys]
  constructor
  · rintro ⟨chunks, pieces, hFinds⟩
    exact ⟨hFinds.opens, chunks,
      hSlots.trans hFinds.present, hFinds.each⟩
  · rintro ⟨hOpen, chunks, hFound, hEach⟩
    have hIds := map_key_of_slots hFound
    rw [hSlots] at hFound
    have hCount :
        chunks.length = config.numChunks.toNat := by
      have hLength := congrArg List.length hFound
      simpa using hLength.symm
    have hAt :
        ∀ k chunk, chunks[k]? = some chunk →
          chunkWithId ((0 + k : Nat) : Int) config =
            some chunk := by
      intro k chunk hChunk
      have hRound :=
        congrArg (fun found => found[k]?) hFound
      have hk := (List.getElem?_eq_some_iff.mp hChunk).1
      rw [hCount] at hk
      rw [List.getElem?_map, List.getElem?_map, hChunk,
        List.getElem?_range hk] at hRound
      rw [Nat.zero_add]
      exact Option.some.inj hRound
    rcases h.pieces 0 [] hAt with ⟨pieces, hLength, hWrote⟩
    refine ⟨chunks, pieces, ?_⟩
    exact
      { opens := hOpen
        present := hFound
        each := hEach
        order := by
          rw [hIds]
          exact hOrder
        lengths := hLength
        wrote := hWrote
        ends := by
          rintro n rfl rfl
          apply (finishGetLoop_eq_iff rfl).mpr
          exact ⟨pieces, hLength.trans hCount, hWrote, rfl⟩ }

/- For a list of a GET, these are the ids of its file. -/
theorem ListedFrom.perm_iff
    (h : ListedFrom old ids config)
    (hAvailable : Available env config files) :
    ((downloadChunks config).map BtChunk.id).Perm
        (lookedUp config.numChunks.toNat) ↔
      config.download.length = ids.length ∧
        ids.Perm (lookedUp ids.length) := by
  have hCount : config.numChunks.toNat = ids.length := by
    rw [h.numChunks]
    rfl
  have hLength :
      (lookedUp ids.length).length = ids.length := by
    simp [lookedUp]
  rw [hCount]
  -- a list of the right length has just the ids of the file
  have hOnly :
      config.download.length = ids.length →
        (downloadChunks config).map BtChunk.id = ids := by
    intro hSize
    rcases h.nodes with hFreed | ⟨hNodes, hIds⟩
    · have hNone : ids = [] := by
        apply List.eq_nil_of_length_eq_zero
        rw [← hSize, hFreed]
        rfl
      rw [hNone]
      simp [downloadChunks, hFreed]
    · exact hIds (by omega)
  constructor
  · intro hPerm
    have hSize : config.download.length = ids.length := by
      have hSame := hPerm.length_eq
      rwa [List.length_map, hAvailable.length, hLength]
        at hSame
    rw [hOnly hSize] at hPerm
    exact ⟨hSize, hPerm⟩
  · rintro ⟨hSize, hPerm⟩
    rw [hOnly hSize]
    exact hPerm

/-
  Whenever `finish_get` is entered for a GET and all chunks
  are available, it finds and writes every node of the list
  if and only if its output file opens, the list has the
  nodes of the chunk file alone, and the ids in the file are
  0, 1, 2 and so on, each once, in any order.
-/
theorem finds_every_iff
    {chunkfile outputfile : Path}
    {ended : Bool}
    {lines : List ChunkLine}
    (hFile :
      n.files.content chunkfile = some (listText ended lines))
    (hRun :
      Reaches (Node.step env) SameGet
        (n.step env (.userGet chunkfile outputfile)) m)
    (hEntry : (config, files) ∈ entries n m)
    (hAvailable : Available env config files) :
    (∃ chunks pieces,
        FindsEvery env config files chunks pieces) ↔
      files.writable config.outputFile = true ∧
        config.download.length = lines.length ∧
        (lines.map ChunkLine.stored).Perm
          (lookedUp lines.length) := by
  have hListed := listing_of_run hFile hRun _ hEntry
  rw [hAvailable.finds_iff, hListed.perm_iff hAvailable,
    List.length_map]

end

/- `1` and forty zeros. -/
def lateLine : ChunkLine :=
  { zeroLine with
    digits := [49]
    number := number_one }

/- The peer that has the chunk of zeros, and a chunk list. -/
def listingNode
    (lines : List ChunkLine) : Node :=
  { sharingNode [0] with
    files :=
      { content := fun path =>
          if path = [5] then some (listText true lines)
          else (sharingNode [0]).files.content path
        writable := fun _ => true } }

/- Its list, where every line has the zeros and an id. -/
def listedConfig
    (ids : List Int) : BtConfig :=
  (sharingNode [0]).config.load [5] [3]
    (ids.map fun id => ⟨Vector.replicate 20 0, id, true⟩)

/- The chunk is there, whatever the output file holds. -/
theorem listingNode_available
    (lines : List ChunkLine)
    {config : BtConfig}
    (hOutput : config.outputFile = [3])
    (hHas : config.hasChunkFile = [4])
    (hMaster : config.chunkFile = [1])
    (hChunks : ∀ r ∈ config.download, ∃ id,
      config.chunk r =
        some (Item.chunk ⟨Vector.replicate 20 0, id, true⟩)) :
    Available stillEnv config (listingNode lines).files where
  chunks := by
    intro r hr
    rcases hChunks r hr with ⟨id, hLive⟩
    refine ⟨_, hLive, ?_⟩
    intro pre
    rw [hOutput]
    have hHasFile :
        ((listingNode lines).files.write [3] pre).content
            config.hasChunkFile =
          some oneChunkText := by
      rw [hHas]
      rfl
    have hMasterFile :
        ((listingNode lines).files.write [3] pre).content
            config.chunkFile =
          some sharedText := by
      rw [hMaster]
      rfl
    have hId :
        hasChunk stillEnv
            ((listingNode lines).files.write [3] pre)
            config (Vector.replicate 20 0) =
          .ok 0 := by
      unfold hasChunk
      rw [hHasFile]
      decide
    have hName :
        masterDataFile stillEnv
            ((listingNode lines).files.write [3] pre)
            config =
          .ok (some [53]) := by
      unfold masterDataFile
      rw [hMasterFile]
      decide
    have hRead : readChunk [0] 0 = .ok (some [0]) := by
      decide
    exact
      ⟨_, .master hId (by decide)
        ⟨⟨[53], [0], [0], hName, rfl, hRead, rfl⟩, rfl⟩⟩

/- `finish_get` is entered at once. -/
theorem listingNode_both :
    (listedConfig [1, 0],
        (listingNode [lateLine, zeroLine]).files) ∈
      entries (listingNode [lateLine, zeroLine])
        ((listingNode [lateLine, zeroLine]).step stillEnv
          (.userGet [5] [3])) := by
  apply List.mem_of_getElem? (i := 0)
  rfl

theorem listingNode_late :
    (listedConfig [1], (listingNode [lateLine]).files) ∈
      entries (listingNode [lateLine])
        ((listingNode [lateLine]).step stillEnv
          (.userGet [5] [3])) := by
  apply List.mem_of_getElem? (i := 0)
  rfl

/- Two lines, the later number first. -/
theorem finds_every_both :
    ∃ chunks pieces,
      FindsEvery stillEnv (listedConfig [1, 0])
        (listingNode [lateLine, zeroLine]).files chunks
        pieces := by
  have hFile :
      (listingNode [lateLine, zeroLine]).files.content [5] =
        some (listText true [lateLine, zeroLine]) :=
    rfl
  have hAvailable :
      Available stillEnv (listedConfig [1, 0])
        (listingNode [lateLine, zeroLine]).files := by
    apply listingNode_available _ rfl rfl rfl
    intro r hr
    rcases List.mem_pair.mp hr with rfl | rfl
    · exact ⟨1, rfl⟩
    · exact ⟨0, rfl⟩
  exact (finds_every_iff hFile .refl listingNode_both
    hAvailable).mpr ⟨rfl, rfl, .swap _ _ _⟩

/- A list whose only id is 1: no node is found for 0. -/
theorem late_id_not_found :
    ¬ ∀ (env : Env) (n m : Node)
        (chunkfile outputfile : Path) (ended : Bool)
        (lines : List ChunkLine) (config : BtConfig)
        (files : Files),
      n.files.content chunkfile =
          some (listText ended lines) →
        Reaches (Node.step env) SameGet
            (n.step env (.userGet chunkfile outputfile)) m →
          (config, files) ∈ entries n m →
            Available env config files →
              files.writable config.outputFile = true →
                n.config.download = [] →
                  ∃ chunks pieces,
                    FindsEvery env config files chunks
                      pieces := by
  intro hClaim
  have hAvailable :
      Available stillEnv (listedConfig [1])
        (listingNode [lateLine]).files := by
    apply listingNode_available _ rfl rfl rfl
    intro r hr
    rw [List.mem_singleton.mp hr]
    exact ⟨1, rfl⟩
  rcases hClaim stillEnv (listingNode [lateLine]) _ [5] [3]
      true [lateLine] _ _ rfl .refl listingNode_late
      hAvailable rfl rfl with
    ⟨chunks, pieces, hFinds⟩
  have hNone : chunkWithId 0 (listedConfig [1]) = none := by
    rfl
  have hPresent :
      [chunkWithId 0 (listedConfig [1])] = chunks.map some :=
    hFinds.present
  rw [hNone] at hPresent
  cases chunks with
  | nil => cases hPresent
  | cons chunk chunks => cases hPresent

end PeerNet
