import PeerNet.Digest.Digests
import PeerNet.Publish.Listing
import PeerNet.Publish.Reported

/-
  A published file is what a GET of it retrieves.

  A publisher runs `make-chunks` on a file and hands out the
  list. When a peer that was asked for this list prints its
  `GOT` line, each part of the output file was hashed and has
  the hash of the list. So an output file of the length of
  the published file is that file, or data that the peer has
  hashed collides with a part of it.

  Main declarations:
    * `Hashed`
    * `TakenFor`
    * `piece_prefix`
    * `got_published`
-/

------------------------------------------------------------
-- The Parts of a File
------------------------------------------------------------

namespace PeerNet

/- The buffers that `make_chunks` hashes. -/
def fileParts
    (file : Bytes) : List Bytes :=
  chunkReads (file.length + 1) file

section

variable {file part : Bytes} {i : Nat}

theorem flatten_chunkReads
    {fuel : Nat}
    (hFuel : file.length < fuel) :
    (chunkReads fuel file).flatten = file := by
  have hSize : btChunkSize = 524288 := rfl
  induction fuel generalizing file with
  | zero => omega
  | succ fuel ih =>
      unfold chunkReads
      split
      · next hNone =>
          have hEmpty : file = [] := by
            have hTake := congrArg List.length hNone
            rw [List.length_take, List.length_nil] at hTake
            exact List.length_eq_zero_iff.mp (by omega)
          rw [hEmpty]
          rfl
      · next hSome =>
          have hPos : 0 < (file.take btChunkSize).length :=
            List.length_pos_of_ne_nil hSome
          rw [List.length_take] at hPos
          rw [List.flatten_cons,
            ih (by rw [List.length_drop]; omega),
            List.take_append_drop]

theorem flatten_fileParts
    (file : Bytes) :
    (fileParts file).flatten = file :=
  flatten_chunkReads (Nat.lt_succ_self _)

theorem length_filePart
    (hPart : (fileParts file)[i]? = some part) :
    part.length ≤ btChunkSize := by
  rw [fileParts, getElem?_chunkReads (Nat.lt_succ_self _)]
    at hPart
  split at hPart
  · cases hPart
    rw [List.length_take]
    exact Nat.min_le_left _ _
  · cases hPart

/- Each part is published under its number. -/
theorem publishedItems_part
    (env : Env)
    (hPart : (fileParts file)[i]? = some part) :
    (publishedItems env file)[i]? =
      some ((i : Int), env.shahash part) := by
  rw [fileParts, getElem?_chunkReads (Nat.lt_succ_self _)]
    at hPart
  rw [getElem?_publishedItems]
  split at hPart
  · next hIn =>
      cases hPart
      rw [if_pos hIn]
  · cases hPart

theorem length_fileParts
    (env : Env)
    (file : Bytes) :
    (fileParts file).length =
      (publishedItems env file).length := by
  rw [length_publishedItems, ← length_makeChunks env file,
    makeChunks, List.length_map, fileParts]

/- The item of a number has the hash of the part. -/
theorem hash_of_item
    {env : Env}
    {hash : Hash}
    (hItem : ((i : Int), hash) ∈ publishedItems env file)
    (hPart : (fileParts file)[i]? = some part) :
    hash = env.shahash part := by
  rcases List.mem_iff_getElem?.mp hItem with ⟨k, hk⟩
  have hSame : i = k := by
    have hNumber := hk
    rw [getElem?_publishedItems] at hNumber
    split at hNumber
    · have hFst := congrArg Prod.fst (Option.some.inj hNumber)
      exact (Int.ofNat.inj hFst).symm
    · cases hNumber
  rw [← hSame, publishedItems_part env hPart] at hk
  exact (congrArg Prod.snd (Option.some.inj hk)).symm

/-
  Pieces that begin the parts are the parts once they are as
  long together.
-/
theorem flatten_eq_of_prefixes
    {pieces parts : List Bytes}
    (hEach : List.Forall₂ (· <+: ·) pieces parts) :
    pieces.flatten.length ≤ parts.flatten.length ∧
      (pieces.flatten.length = parts.flatten.length →
        pieces.flatten = parts.flatten) := by
  induction hEach with
  | nil => exact ⟨Nat.le_refl _, fun _ => rfl⟩
  | cons hFirst _ ih =>
      have hShort := hFirst.length_le
      simp only [List.flatten_cons, List.length_append]
      refine ⟨Nat.add_le_add hShort ih.1, fun hSame => ?_⟩
      have hLe := ih.1
      rw [hFirst.eq_of_length (by omega), ih.2 (by omega)]

end

end PeerNet

------------------------------------------------------------
-- What Was Hashed
------------------------------------------------------------

namespace PeerNet

/-
  The bytes whose hash was compared with that of a chunk: by
  `finish_get` in the master data file, or by `finish_chunk`
  in its buffer.
-/
inductive Hashed
    (env : Env)
    (config : BtConfig)
    (files : Files)
    (chunk : BtChunk)
    (bytes : Bytes) : Prop
| master {id : Int} :
    hasChunk env files config chunk.hash = .ok id →
    MasterHolds env config files chunk.hash id bytes →
    Hashed env config files chunk bytes
| buffer {nodes : List BtPacket} :
    chunk.packets = .live nodes →
    writeToBuffer env nodes = .ok bytes →
    Hashed env config files chunk bytes

/-
  What was hashed for some chunk of the GET, when `pre` was
  in the output file, collides with that part of the file.
-/
def TakenFor
    (env : Env)
    (config : BtConfig)
    (files : Files)
    (file : Bytes) : Prop :=
  ∃ (i : Nat) (chunk : BtChunk) (bytes part pre : Bytes),
    chunkWithId i config = some chunk ∧
      Hashed env config
          (files.write config.outputFile pre) chunk bytes ∧
        (fileParts file)[i]? = some part ∧
          GutsCollide bytes part

section

variable {sha sha' : SHA1Context} {env publisher : Env}
variable {config : BtConfig} {files : Files}
variable {chunk : BtChunk} {piece part bytes : Bytes}

/- A buffer of a chunk. -/
theorem length_of_writeToBuffer
    {nodes : List BtPacket}
    {buffer : Bytes}
    (hMade : writeToBuffer env nodes = .ok buffer) :
    buffer.length = btChunkSize := by
  unfold writeToBuffer at hMade
  split at hMade
  · cases hMade
  split at hMade
  · next hFits =>
      cases hMade
      exact env.length_fill hFits
  · cases hMade

/- It begins with what is written to the output file. -/
theorem prefix_of_writeToBuffer
    {nodes : List BtPacket}
    (hPiece : packetBytes nodes = .ok piece)
    (hMade : writeToBuffer env nodes = .ok bytes) :
    piece <+: bytes := by
  unfold writeToBuffer at hMade
  rw [hPiece] at hMade
  dsimp only at hMade
  split at hMade
  · cases hMade
    exact List.prefix_append _ _
  · cases hMade

/- Whoever hashes with `sha.c` gets the same hash. -/
theorem hashing_shahash
    (sha sha' : SHA1Context)
    (env publisher : Env)
    (hLength : part.length ≤ btChunkSize) :
    (publisher.hashing sha').shahash part =
        (env.hashing sha).shahash part ∧
      shahash sha part part.length =
        some ((env.hashing sha).shahash part) := by
  have hSize : btChunkSize = 524288 := rfl
  rcases shahash_eq sha part (by omega) with
    ⟨hash, hSome, hHash⟩
  rcases shahash_eq sha' part (by omega) with
    ⟨hash', hSome', hHash'⟩
  unfold Env.hashing
  dsimp only
  rw [hSome, hSome']
  exact
    ⟨Vector.toList_inj.mp (hHash'.trans hHash.symm), rfl⟩

/- What is written for a chunk begins what was published. -/
theorem piece_prefix
    (hReceived : chunk.Received (env.hashing sha))
    (hHash :
      chunk.hash = (publisher.hashing sha').shahash part)
    (hPart : part.length ≤ btChunkSize)
    (hPiece :
      Piece (env.hashing sha) config files chunk piece) :
    piece <+: part ∨
      ∃ bytes,
        Hashed (env.hashing sha) config files chunk bytes ∧
          GutsCollide bytes part := by
  have hSame := hashing_shahash sha sha' env publisher hPart
  have hPublished :
      shahash sha part part.length = some chunk.hash := by
    rw [hHash, hSame.1]
    exact hSame.2
  cases hPiece with
  | master hId hOwned hHolds =>
      rcases eq_or_collide_of_hash hHolds.length.le hPart
          hHolds.hash hPublished with hEqual | hCollide
      · left
        rw [hEqual]
      · exact .inr ⟨piece, .master hId hHolds, hCollide⟩
  | packets _ hNodes hBytes =>
      rcases hReceived with
        hNone | ⟨nodes, hNodes', buffer, hMade, hVerified⟩
      · rw [hNone] at hNodes
        cases hNodes
        cases hBytes
        exact .inl List.nil_prefix
      · rw [hNodes'] at hNodes
        cases hNodes
        have hBegins := prefix_of_writeToBuffer hBytes hMade
        rcases eq_or_collide_of_hash
            (length_of_writeToBuffer hMade).le hPart hVerified
            hPublished with hEqual | hCollide
        · left
          rw [← hEqual]
          exact hBegins
        · exact .inr
            ⟨buffer, .buffer hNodes' hMade, hCollide⟩

end

end PeerNet

------------------------------------------------------------
-- A Published File
------------------------------------------------------------

namespace PeerNet

open Prog Runs

section

variable {sha sha' : SHA1Context} {env publisher : Env}
variable {n m : Node} {config : BtConfig} {files out : Files}
variable {chunkfile outputfile name : Path} {file : Bytes}

/- The chunk with a number has the hash of that part. -/
theorem Wants.hash
    {i : Nat}
    {chunk : BtChunk}
    {part : Bytes}
    (h :
      Wants chunkfile outputfile
        (publishedItems publisher file) config)
    (hChunk : chunkWithId i config = some chunk)
    (hPart : (fileParts file)[i]? = some part) :
    chunk.hash = publisher.shahash part := by
  have hMem := List.mem_of_find?_eq_some hChunk
  have hId : chunk.id = i := by
    simpa using List.find?_some hChunk
  have hItem :
      chunk.item ∈ publishedItems publisher file := by
    rcases h.list with hFreed | hItems
    · simp [downloadChunks, hFreed] at hMem
    · rw [← hItems]
      exact List.mem_map_of_mem hMem
  apply hash_of_item _ hPart
  rwa [BtChunk.item, hId] at hItem

/- What the loop has written is the file, if it is as long. -/
theorem Written.retrieved
    (h :
      Written (env.hashing sha) config files out name)
    (hWants :
      Wants chunkfile outputfile
        (publishedItems (publisher.hashing sha') file) config)
    (hReceived : ∀ chunk ∈ downloadChunks config,
      chunk.Received (env.hashing sha)) :
    ∃ output, out.content outputfile = some output ∧
      (output.length = file.length →
        output = file ∨
          TakenFor (env.hashing sha) config files file) := by
  rcases h.written with ⟨pieces, hCount, hWrote, hOutput⟩
  rw [hWants.outputFile] at hOutput
  refine ⟨pieces.flatten, hOutput, fun hLength => ?_⟩
  by_cases hTaken : TakenFor (env.hashing sha) config files file
  · exact .inr hTaken
  left
  have hParts : pieces.length = (fileParts file).length := by
    rw [hCount, hWants.numChunks,
      length_fileParts (publisher.hashing sha')]
    rfl
  have hEach :
      List.Forall₂ (· <+: ·) pieces (fileParts file) := by
    rw [List.forall₂_iff_get]
    refine ⟨hParts, fun i hi hi' => ?_⟩
    have hPiece : pieces[i]? = some (pieces.get ⟨i, hi⟩) :=
      List.getElem?_eq_getElem hi
    have hPart :
        (fileParts file)[i]? =
          some ((fileParts file).get ⟨i, hi'⟩) :=
      List.getElem?_eq_getElem hi'
    rcases wrote_iff.mp hWrote i _ hPiece with
      ⟨chunk, hChunk, hIs⟩
    rw [zero_add] at hChunk
    rcases piece_prefix
        (hReceived chunk (List.mem_of_find?_eq_some hChunk))
        (hWants.hash hChunk hPart) (length_filePart hPart)
        hIs with hPrefix | ⟨bytes, hHashed, hCollide⟩
    · exact hPrefix
    · exact absurd ⟨i, chunk, bytes, _, _, hChunk, hHashed,
        hPart, hCollide⟩ hTaken
  have hFlatten := (flatten_eq_of_prefixes hEach).2
  rw [flatten_fileParts] at hFlatten
  exact hFlatten hLength

end

/-
  A peer is asked for the list that a publisher has printed
  for a file, and prints `GOT` before it is asked for
  something else. Whatever peers and strangers have sent it
  and whatever was lost, its output file is the published
  file, or has another length, or something that the peer has
  hashed collides with a part of the file.
-/
theorem got_published
    (sha sha' : SHA1Context)
    {env publisher : Env}
    {n₀ n m : Node}
    {chunkfile outputfile name : Path}
    {file text : Bytes}
    {before : List Event}
    {config : BtConfig}
    {files : Files}
    (hClock : PositiveClock env)
    (hStart : Configured n₀)
    (hRun : Run (env.hashing sha) n₀ n)
    (hNone : n.config.download = [])
    (hSize : file.length < 2 ^ 50)
    (hPublished :
      makeChunksMain (publisher.hashing sha') file = some text)
    (hFile : n.files.content chunkfile = some text)
    (hAfter :
      Reaches (Node.step (env.hashing sha))
        (fun k e => Promised k e ∧ SameGet k e)
        (n.step (env.hashing sha)
          (.userGet chunkfile outputfile)) m)
    (hEntry : (config, files) ∈ entries n m)
    (hGot :
      m.trace =
        before ++ [.finishGet config files, .got name]) :
    name = chunkfile ∧
      ∃ output, m.files.content outputfile = some output ∧
        (output.length = file.length →
          output = file ∨
            TakenFor (env.hashing sha) config files file) := by
  have hAsk : Promised n (.userGet chunkfile outputfile) :=
    hNone
  have hAll : Run (env.hashing sha) n₀ m :=
    (Reaches.step _ hRun hAsk).trans
      (hAfter.mono fun _ _ h => h.1)
  rcases makeChunksMain_lines (publisher.hashing sha') file with
    ⟨ended, hText⟩
  have hLines :
      n.files.content chunkfile =
        some (listText ended
          (publishedLines (publisher.hashing sha') file)) := by
    rw [hFile, ← hPublished, hText]
  have hWants :=
    wants_of_run hNone hLines (hAfter.mono fun _ _ h => h.2)
      hEntry
  rw [publishedLines_items _ hSize] at hWants
  have hWritten :=
    reported_of_run hStart.trace hAll before config files name
      hGot
  have hReceived :
      ∀ chunk ∈ downloadChunks config,
        chunk.Received (env.hashing sha) := by
    intro chunk hChunk
    have hPositive : PositiveClock (env.hashing sha) := hClock
    exact received_of_run hPositive hStart hAll
      (List.mem_of_mem_drop hEntry) hChunk
  exact ⟨hWritten.name.trans hWants.getChunkFile,
    hWritten.retrieved hWants hReceived⟩

/- The line of a file of one chunk. -/
def oneLine
    (hash : Hash) : ChunkLine :=
  ChunkRecord.line ⟨hash, 0⟩

/-
  A peer that shares the chunk of zeros, with a list as its
  has-chunk file and as the file `5`.
-/
def zerosNode
    (listing : Bytes) : Node :=
  { sharingNode zeroChunk with
    files :=
      { content := fun path =>
          if path = [4] then some listing
          else if path = [5] then some listing
          else (sharingNode zeroChunk).files.content path
        writable := fun _ => true } }

/- Its configuration when it was asked for the file `5`. -/
def zerosConfig
    (listing : Bytes)
    (hash : Hash) : BtConfig :=
  (zerosNode listing).config.load [5] [3] [⟨hash, 0, true⟩]

section

variable {env : Env} {hash : Hash} {listing : Bytes}
variable {ended : Bool}

theorem publishedItems_zeros
    (hHash : env.shahash zeroChunk = hash) :
    publishedItems env zeroChunk = [(0, hash)] := by
  have hSize : btChunkSize = 524288 := rfl
  have hLength := length_zeroChunk
  apply List.ext_getElem?
  intro i
  rw [getElem?_publishedItems, hLength]
  cases i with
  | zero =>
      rw [Nat.zero_mul, if_pos (by omega), List.drop_zero,
        List.take_of_length_le hLength.le, hHash]
      rfl
  | succ i =>
      rw [Nat.succ_mul, if_neg (by omega)]
      rfl

theorem oneLine_stored :
    (oneLine hash).stored = 0 := by
  rw [ChunkLine.stored, oneLine, ChunkRecord.line_id]
  have hZero : Scanf.storeInt 0 = 0 := by decide
  exact hZero

theorem oneLine_hash :
    (oneLine hash).hash = hash :=
  ChunkRecord.line_hash _

/- The list of the chunk of zeros is its line. -/
theorem makeChunksMain_zeros
    (env : Env)
    (hHash : env.shahash zeroChunk = hash) :
    ∃ ended,
      makeChunksMain env zeroChunk =
        some (listText ended [oneLine hash]) := by
  rcases makeChunksMain_lines env zeroChunk with
    ⟨ended, hText⟩
  have hLines :
      publishedLines env zeroChunk = [oneLine hash] := by
    rw [publishedLines, publishedItems_zeros hHash]
    rfl
  rw [hLines] at hText
  exact ⟨ended, hText⟩

theorem hasChunk_oneLine
    {c : BtConfig}
    {files : Files}
    (hFile :
      files.content c.hasChunkFile =
        some (listText ended [oneLine hash])) :
    hasChunk env files c hash = .ok 0 := by
  have hFound :
      lookupLine hash [oneLine hash] = some (oneLine hash) := by
    rw [lookupLine_cons, if_pos oneLine_hash]
  rw [hasChunk_list env _ hFile, listedId, hFound]
  exact congrArg Except.ok oneLine_stored

/- The chunk is found there, whatever was written so far. -/
theorem zerosConfig_piece
    (hHash : env.shahash zeroChunk = hash)
    (hListing : listing = listText ended [oneLine hash])
    (pre : Bytes) :
    Piece env (zerosConfig listing hash)
      ((zerosNode listing).files.write [3] pre)
      (Item.chunk ⟨hash, 0, true⟩) zeroChunk := by
  have hFile :
      ((zerosNode listing).files.write [3] pre).content
          (zerosConfig listing hash).hasChunkFile =
        some (listText ended [oneLine hash]) := by
    rw [← hListing]
    rfl
  have hMaster :
      ((zerosNode listing).files.write [3] pre).content
          (zerosConfig listing hash).chunkFile =
        some sharedText :=
    rfl
  have hName :
      masterDataFile env
          ((zerosNode listing).files.write [3] pre)
          (zerosConfig listing hash) =
        .ok (some [53]) := by
    have hScan :
        Scanf.scanLiteralWord [70, 105, 108, 101, 58]
            sharedText =
          .value [53] [10] := by
      decide
    unfold masterDataFile
    rw [hMaster]
    dsimp only
    rw [hScan]
    rfl
  have hRead :
      readChunk zeroChunk 0 = .ok (some zeroChunk) := by
    have hPos : 0 * btChunkSize < zeroChunk.length := by
      rw [length_zeroChunk]
      decide
    have hChunk := readChunk_published (i := 0) hPos
    rw [Nat.zero_mul, List.drop_zero,
      List.take_of_length_le length_zeroChunk.le] at hChunk
    exact hChunk
  refine .master (hasChunk_oneLine hFile) (by decide) ?_
  refine ⟨⟨[53], zeroChunk, zeroChunk, hName, rfl, hRead,
    (fill_full env length_zeroChunk).symm⟩, ?_⟩
  exact decide_eq_true hHash.symm

/- Asked for the file, the peer retrieves it at once. -/
theorem zerosNode_retrieves
    (env : Env)
    (hClock : ∀ k, env.clock k = 1)
    (hHash : env.shahash zeroChunk = hash)
    (hListing : listing = listText ended [oneLine hash]) :
    ((zerosNode listing).step env (.userGet [5] [3])).trace =
      [.finishGet (zerosConfig listing hash)
          (zerosNode listing).files,
        .got [5]] := by
  have hEnd := wordEnd_linesText ended []
  have hBlank :
      Scanf.scanIntWord (linesText ended []) = .eof := by
    cases ended <;> rfl
  have hHas :
      hasChunk env (zerosNode listing).files
          ((zerosNode listing).config.startGet [5] [3]) hash =
        .ok 0 := by
    have hFile :
        (zerosNode listing).files.content
            ((zerosNode listing).config.startGet [5]
              [3]).hasChunkFile =
          some (listText ended [oneLine hash]) := by
      rw [← hListing]
      rfl
    exact hasChunk_oneLine hFile
  -- the list has one line, and the chunk is owned
  have hLoop :
      wp (addChunks env (listing.length + 1) listing
          (textBuffer env))
        (fun _ k =>
          k = (zerosNode listing).onConfig
            fun _ => zerosConfig listing hash)
        (fun _ _ => False)
        ((zerosNode listing).onConfig
          (BtConfig.startGet [5] [3])) := by
    have hLong : ∃ k, listing.length = k + 1 := by
      apply Nat.exists_eq_add_one.mpr
      rw [hListing]
      exact length_listText ended [oneLine hash]
    rcases hLong with ⟨k, hk⟩
    have hText :
        listing = (oneLine hash).text ++ linesText ended [] :=
      hListing
    have hStore := (oneLine hash).store (textBuffer env)
    rw [hk]
    unfold addChunks
    rw [hText, (oneLine hash).scan hEnd]
    dsimp only
    rw [wp_bind, hStore.1]
    unfold lift
    dsimp only
    rw [wp_pure, hStore.2, oneLine_hash, oneLine_stored]
    unfold addReceiverList
    rw [wp_bind, wp_bind, wp_get, wp_bind]
    rw [← hText, Node.onConfig_config, Node.onConfig_files,
      hHas]
    unfold lift
    dsimp only
    rw [wp_pure, wp_modify]
    unfold addChunks
    rw [hBlank]
    exact rfl
  -- `finish_get` then writes the one chunk
  have hFinish :
      Gathered env
        ((zerosNode listing).onConfig
            fun _ => zerosConfig listing hash).tick
        [zeroChunk] := by
    refine (gathered_iff rfl).mpr
      ⟨rfl, [zeroChunk], rfl, ⟨?_, trivial⟩, rfl⟩
    exact ⟨Item.chunk ⟨hash, 0, true⟩, rfl,
      zerosConfig_piece hHash hListing []⟩
  have hFile :
      (zerosNode listing).files.content [5] = some listing :=
    rfl
  have hList : (zerosConfig listing hash).download = [0] :=
    rfl
  have hRecent :
      1 - (zerosConfig listing hash).lastWhohas <
        whohasMillis := by
    change (1 : Int) - 0 < 15 * 1000
    decide
  have hAll :
      (zerosConfig listing hash).numDownloaded =
        (zerosConfig listing hash).numChunks :=
    rfl
  unfold Node.step handle
  apply Node.exec_of_wp
    (P := fun m =>
      m.trace =
        [.finishGet (zerosConfig listing hash)
            (zerosNode listing).files,
          .got [5]]) _ fun hFault => by cases hFault
  unfold processUserGet
  rw [wp_bind, wp_get, hFile]
  dsimp only
  rw [wp_bind, wp_modify, wp_bind]
  apply wp_mono hLoop
  · rintro _ k rfl
    rw [wp_bind]
    unfold sendWhohas
    rw [wp_bind, wp_get]
    dsimp only
    rw [Node.onConfig_config, hList,
      if_neg (List.cons_ne_nil _ _), wp_bind, wp_timeMillis,
      hClock, if_pos hRecent, wp_pure, wp_bind, wp_get]
    rw [Node.tick_config, Node.onConfig_config, if_pos hAll]
    apply wp_mono hFinish
    · intro _ m hm
      exact hm.2.1
    · exact fun _ _ h => h.elim
  · exact fun _ _ h => h.elim

end

/- The list that is printed of the chunk of zeros. -/
def zeroListing : Bytes :=
  (makeChunksMain (stillEnv.hashing zeroContext)
    zeroChunk).getD []

/- The owner of the chunk, asked for it by this list. -/
def retrievedNode : Node :=
  (zerosNode zeroListing).step (stillEnv.hashing zeroContext)
    (.userGet [5] [3])

def retrievedConfig : BtConfig :=
  zerosConfig zeroListing
    ((stillEnv.hashing zeroContext).shahash zeroChunk)

theorem makeChunksMain_zeroListing :
    makeChunksMain (stillEnv.hashing zeroContext) zeroChunk =
      some zeroListing := by
  rcases makeChunksMain_zeros
      (stillEnv.hashing zeroContext) rfl with
    ⟨ended, hText⟩
  rw [zeroListing, hText]
  rfl

theorem retrievedNode_trace :
    retrievedNode.trace =
      [.finishGet retrievedConfig (zerosNode zeroListing).files,
        .got [5]] := by
  have hText := makeChunksMain_zeroListing
  have hClock :
      ∀ k, (stillEnv.hashing zeroContext).clock k = 1 :=
    fun _ => rfl
  unfold retrievedConfig
  generalize hHash :
    (stillEnv.hashing zeroContext).shahash zeroChunk = hash
  rcases makeChunksMain_zeros
      (stillEnv.hashing zeroContext) hHash with
    ⟨ended, hLine⟩
  rw [hLine] at hText
  exact zerosNode_retrieves (stillEnv.hashing zeroContext)
    hClock hHash (Option.some.inj hText).symm

theorem retrievedNode_entry :
    (retrievedConfig, (zerosNode zeroListing).files) ∈
      entries (zerosNode zeroListing) retrievedNode := by
  unfold entries
  rw [retrievedNode_trace]
  exact List.mem_cons_self

theorem zerosNode_configured
    (listing : Bytes) :
    Configured (zerosNode listing) :=
  { onePeerNode_configured with }

/- The zeros are retrieved, unless they collide. -/
theorem got_published_zeros :
    ([5] : Path) = [5] ∧
      ∃ output,
        retrievedNode.files.content [3] = some output ∧
          (output.length = zeroChunk.length →
            output = zeroChunk ∨
              TakenFor (stillEnv.hashing zeroContext)
                retrievedConfig (zerosNode zeroListing).files
                zeroChunk) := by
  have hSize : zeroChunk.length < 2 ^ 50 := by
    rw [length_zeroChunk]
    decide
  have hGot :
      retrievedNode.trace =
        [] ++ [.finishGet retrievedConfig
            (zerosNode zeroListing).files,
          .got [5]] :=
    retrievedNode_trace
  exact got_published zeroContext zeroContext (fun _ => Int.one_pos)
    (zerosNode_configured zeroListing) .refl rfl hSize
    makeChunksMain_zeroListing rfl .refl retrievedNode_entry
    hGot

end PeerNet
