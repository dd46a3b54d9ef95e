import PeerNet.Lib.FirstMatch
import PeerNet.Packets.Restart
import PeerNet.Receiver.FinishGet
import PeerNet.Receiver.Links
import PeerNet.Sender.Published

/-
  What `finish_get` writes to the output file.

  `finish_get` looks every chunk up in the has-chunk file,
  to which `finish_chunk` has added the downloaded ones. A
  chunk that is named there is read from the master data
  file, and the packets that have come for it are not used.

  Main declarations:
    * `CompleteGet`
    * `Gathered`
    * `Recovered`
    * `finishGet_gathers_iff`
    * `received_of_run`
-/

------------------------------------------------------------
-- The Loop
------------------------------------------------------------

namespace PeerNet

open Prog

section

variable {env : Env} {n m : Node} {config : BtConfig}
variable {files : Files} {chunk : BtChunk}

/- One round writes the piece of its chunk. -/
theorem finishGetChunk_eq_iff
    (i : Int) :
    finishGetChunk env i n = .ok true m ↔
      ∃ chunk bytes,
        chunkWithId i n.config = some chunk ∧
          Piece env n.config n.files chunk bytes ∧
            m = n.onFiles
              (Files.append n.config.outputFile bytes) := by
  constructor
  · intro hEnd
    have hRound := finishGetChunk_piece env i n
    unfold wp at hRound
    rw [hEnd] at hRound
    rcases hRound with ⟨chunk, hChunk, hGo, -⟩
    rcases hGo rfl with ⟨-, bytes, hPiece, hAfter⟩
    exact ⟨chunk, bytes, hChunk, hPiece, hAfter⟩
  · rintro ⟨chunk, bytes, hChunk, hPiece, rfl⟩
    rw [← wp_eq_ok]
    unfold finishGetChunk
    rw [wp_bind, wp_get]
    rw [hChunk]
    dsimp only
    cases hPiece with
    | master hId hOwned hHolds =>
        rw [wp_bind, hId]
        unfold lift
        rw [wp_pure, if_pos hOwned, wp_bind,
          masterBytes_eq_some_iff.mpr hHolds]
        exact ⟨rfl, rfl⟩
    | packets hId hNodes hBytes =>
        rw [wp_bind, hId]
        unfold lift
        rw [wp_pure, if_neg (not_not.mpr rfl), wp_bind, hNodes]
        unfold writeToFile lift
        dsimp only
        rw [hBytes]
        exact ⟨rfl, rfl⟩

end

/-
  The chunks from number `i` on give these pieces, each looked
  for when `pre` and the pieces before it are in the output.
-/
def Wrote
    (env : Env)
    (config : BtConfig)
    (files : Files) :
    Int → Bytes → List Bytes → Prop
| _, _, [] => True
| i, pre, bytes :: rest =>
    (∃ chunk, chunkWithId i config = some chunk ∧
      Piece env config
        (files.write config.outputFile pre) chunk bytes) ∧
    Wrote env config files (i + 1) (pre ++ bytes) rest

section

variable {env : Env} {n m : Node} {config : BtConfig}
variable {files : Files}

theorem Files.content_write_of_ne
    {path out : Path}
    (hOther : path ≠ out)
    (bytes : Bytes) :
    (files.write out bytes).content path =
      files.content path := by
  simp [Files.write, hOther]

theorem Files.write_write
    (path : Path)
    (pre bytes : Bytes) :
    (files.write path pre).write path bytes =
      files.write path bytes := by
  simp [Files.write]

theorem Files.append_write
    (path : Path)
    (pre bytes : Bytes) :
    (files.write path pre).append path bytes =
      files.write path (pre ++ bytes) := by
  unfold Files.append
  rw [Files.write_write]
  simp [Files.write]

/- The loop writes the pieces of its chunks, in order. -/
theorem finishGetLoop_eq_iff
    {count : Nat}
    {i : Int}
    {pre : Bytes}
    (hFiles :
      n.files = files.write n.config.outputFile pre) :
    finishGetLoop env count i n = .ok true m ↔
      ∃ pieces, pieces.length = count ∧
        Wrote env n.config files i pre pieces ∧
          m = { n with
            files :=
              files.write n.config.outputFile
                (pre ++ pieces.flatten) } := by
  induction count generalizing i n pre with
  | zero =>
      constructor
      · intro hEnd
        refine ⟨[], rfl, trivial, ?_⟩
        rw [List.flatten_nil, List.append_nil, ← hFiles]
        cases hEnd
        rfl
      · rintro ⟨pieces, hCount, -, rfl⟩
        rw [List.eq_nil_of_length_eq_zero hCount,
          List.flatten_nil, List.append_nil, ← hFiles]
        rfl
  | succ count ih =>
      have hNext :
          ∀ bytes,
            (n.onFiles (Files.append n.config.outputFile
                bytes)).files =
              files.write n.config.outputFile
                (pre ++ bytes) := by
        intro bytes
        rw [Node.onFiles_files, hFiles, Files.append_write]
      unfold finishGetLoop
      rw [bind_eq_ok]
      constructor
      · rintro ⟨go, t, hRound, hRest⟩
        cases go with
        | false => cases hRest
        | true =>
            rcases (finishGetChunk_eq_iff i).mp hRound with
              ⟨chunk, bytes, hChunk, hPiece, rfl⟩
            rw [if_pos rfl] at hRest
            rcases (ih (hNext bytes)).mp hRest with
              ⟨pieces, rfl, hWrote, rfl⟩
            refine ⟨bytes :: pieces, rfl,
              ⟨⟨chunk, hChunk, ?_⟩, hWrote⟩, ?_⟩
            · rw [← hFiles]
              exact hPiece
            · rw [List.flatten_cons, ← List.append_assoc]
              rfl
      · rintro ⟨pieces, hCount, hWrote, rfl⟩
        cases pieces with
        | nil => cases hCount
        | cons bytes pieces =>
            rcases hWrote with
              ⟨⟨chunk, hChunk, hPiece⟩, hWrote⟩
            rw [← hFiles] at hPiece
            refine ⟨true, _, (finishGetChunk_eq_iff i).mpr
              ⟨chunk, bytes, hChunk, hPiece, rfl⟩, ?_⟩
            rw [if_pos rfl]
            apply (ih (hNext bytes)).mpr
            refine ⟨pieces, Nat.succ.inj hCount, hWrote, ?_⟩
            rw [List.flatten_cons, ← List.append_assoc]
            rfl

/- Chunk by chunk. -/
theorem wrote_iff
    {i : Int}
    {pre : Bytes}
    {pieces : List Bytes} :
    Wrote env config files i pre pieces ↔
      ∀ k bytes, pieces[k]? = some bytes →
        ∃ chunk, chunkWithId (i + (k : Nat)) config =
            some chunk ∧
          Piece env config
            (files.write config.outputFile
              (pre ++ (pieces.take k).flatten)) chunk
            bytes := by
  induction pieces generalizing i pre with
  | nil => exact iff_of_true trivial (by simp)
  | cons bytes pieces ih =>
      unfold Wrote
      rw [ih]
      constructor
      · rintro ⟨hFirst, hRest⟩ k next hNext
        cases k with
        | zero =>
            cases hNext
            simpa using hFirst
        | succ k =>
            have hPiece := hRest k next hNext
            rw [List.take_succ_cons, List.flatten_cons,
              ← List.append_assoc]
            have hIndex :
                i + ((k + 1 : Nat) : Int) = i + 1 + k := by
              omega
            rwa [hIndex]
      · intro hAll
        constructor
        · simpa using hAll 0 bytes rfl
        · intro k next hNext
          have hPiece := hAll (k + 1) next hNext
          rw [List.take_succ_cons, List.flatten_cons,
            ← List.append_assoc] at hPiece
          have hIndex :
              i + ((k + 1 : Nat) : Int) = i + 1 + k := by
            omega
          rwa [hIndex] at hPiece

end


end PeerNet

------------------------------------------------------------
-- The Call
------------------------------------------------------------

namespace PeerNet

open Prog

/-
  `finish_get` ends with the contents in the output file, the
  GET reported and the list freed.
-/
def Gathered
    (env : Env)
    (n : Node)
    (contents : List Bytes) : Prop :=
  wp (finishGet env)
    (fun _ m =>
      m.files.content n.config.outputFile =
          some contents.flatten ∧
        m.trace =
            n.trace ++ [.finishGet n.config n.files,
              .got n.config.getChunkFile] ∧
          m.config.download = [])
    (fun _ _ => False) n

section

variable {env : Env} {n : Node} {contents : List Bytes}

/- The loop runs on this node. -/
def Node.atLoop
    (n : Node) : Node :=
  (n.emit (.finishGet n.config n.files)).onFiles
    (Files.write n.config.outputFile [])

/- The call writes the pieces its loop finds. -/
theorem gathered_iff
    (hFreeable :
      (downloadChunks n.config).all chunkFreeable = true) :
    Gathered env n contents ↔
      n.files.writable n.config.outputFile = true ∧
        ∃ pieces : List Bytes,
          pieces.length = n.config.numChunks.toNat ∧
            Wrote env n.config n.files 0 [] pieces ∧
              pieces.flatten = contents.flatten := by
  have hLoopAll :=
    finishGetLoop_unbroken env n.config.numChunks.toNat 0
      n.atLoop
  unfold Gathered finishGet
  rw [wp_bind, wp_get, wp_bind, wp_modify, wp_ite]
  constructor
  · rintro ⟨hGo, hStop⟩
    have hOpen :
        n.files.writable n.config.outputFile = true := by
      by_contra hClosed
      have hTrace := (hStop hClosed).2.1
      rw [Node.emit_trace] at hTrace
      have hLength := congrArg List.length hTrace
      simp at hLength
    refine ⟨hOpen, ?_⟩
    have hEnd := hGo hOpen
    rw [wp_bind, wp_modify, wp_bind] at hEnd
    unfold wp at hEnd hLoopAll
    cases hLoop :
        finishGetLoop env n.config.numChunks.toNat 0
          n.atLoop with
    | error f t =>
        unfold Node.atLoop at hLoop
        rw [hLoop] at hEnd
        cases hEnd
    | ok go t =>
        rw [hLoop] at hLoopAll
        unfold Node.atLoop at hLoop
        rw [hLoop] at hEnd
        cases go with
        | false =>
            -- The loop has returned: no `GOT` line.
            rcases hLoopAll with ⟨⟨g, rfl⟩, -⟩
            have hLength := congrArg List.length hEnd.2.1
            simp [Node.atLoop] at hLength
        | true =>
            rcases (finishGetLoop_eq_iff rfl).mp hLoop with
              ⟨pieces, hCount, hWrote, rfl⟩
            refine ⟨pieces, hCount, hWrote, ?_⟩
            have hLast :
                wp (do
                    modify (Node.emit
                      (.got n.config.getChunkFile))
                    delReceiverList)
                  (fun _ m =>
                    m.files.content n.config.outputFile =
                      some contents.flatten ∧ _)
                  (fun _ _ => False) _ :=
              hEnd
            unfold delReceiverList at hLast
            rw [wp_bind, wp_modify, wp_bind, wp_get,
              wp_ite] at hLast
            have hOutput := (hLast.1 hFreeable).1
            simpa [Files.write] using hOutput
  · rintro ⟨hOpen, pieces, hCount, hWrote, hFlatten⟩
    refine ⟨fun _ => ?_, fun hClosed => absurd hOpen hClosed⟩
    have hLoop :
        finishGetLoop env n.config.numChunks.toNat 0
            n.atLoop =
          .ok true
            { n.atLoop with
              files :=
                n.files.write n.config.outputFile
                  ([] ++ pieces.flatten) } :=
      (finishGetLoop_eq_iff rfl).mpr
        ⟨pieces, hCount, hWrote, rfl⟩
    rw [wp_bind, wp_modify, wp_bind]
    apply wp_mono (wp_eq_ok.mpr hLoop)
    · rintro go t ⟨rfl, rfl⟩
      rw [if_pos rfl]
      unfold delReceiverList
      rw [wp_bind, wp_modify, wp_bind, wp_get, wp_ite]
      refine ⟨fun _ => ?_, fun h => absurd hFreeable h⟩
      rw [wp_modify]
      refine ⟨?_, ?_, rfl⟩
      · rw [← hFlatten]
        simp [Files.write]
      · simp [Node.atLoop]
    · exact fun _ _ h => h

end

end PeerNet

------------------------------------------------------------
-- A Completed GET
------------------------------------------------------------

namespace PeerNet

open FirstMatch Reassembly

/-
  A chunk of a GET and its bytes: the peer owned it, or its
  packets have come and `finish_chunk` has verified them.
-/
inductive Obtained
    (env : Env)
    (config : BtConfig)
    (files : Files)
    (chunk : BtChunk)
    (bytes : Bytes) : Prop
| owned {id : Int} :
    chunk.packets = .live [] →
    hasChunk env files config chunk.hash = .ok id →
    id ≠ -1 →
    MasterHolds env config files chunk.hash id bytes →
    Obtained env config files chunk bytes
| downloaded {nodes : List BtPacket} :
    chunk.packets = .live nodes →
    packetBytes nodes = .ok bytes →
    bytes.length = btChunkSize →
    Verified env chunk.hash nodes →
    Obtained env config files chunk bytes

/-
  All chunks of the GET are there: they are numbered from 0,
  and `contents` lists their bytes.
-/
structure CompleteGet
    (env : Env)
    (n : Node)
    (contents : List Bytes) : Prop where
  numChunks : n.config.numChunks = contents.length
  ids :
    ((downloadChunks n.config).map BtChunk.id).Perm
      ((List.range contents.length).map Int.ofNat)
  chunks : ∀ chunk ∈ downloadChunks n.config,
    ∃ bytes, contents[chunk.id.toNat]? = some bytes ∧
      Obtained env n.config n.files chunk bytes

/-
  `finish_get` finds these bytes of a chunk: in its packets,
  if the has-chunk file does not name it, or else in the
  master data file.
-/
inductive Recovered
    (env : Env)
    (config : BtConfig)
    (files : Files)
    (chunk : BtChunk)
    (bytes : Bytes) : Prop
| packets :
    hasChunk env files config chunk.hash = .ok (-1) →
    chunk.packets ≠ .live [] →
    Recovered env config files chunk bytes
| master {id : Int} :
    hasChunk env files config chunk.hash = .ok id →
    id ≠ -1 →
    MasterHolds env config files chunk.hash id bytes →
    Recovered env config files chunk bytes

section

variable {env : Env} {n : Node} {config : BtConfig}
variable {files files' : Files} {chunk : BtChunk}
variable {hash : Hash} {id : Int} {bytes : Bytes}
variable {contents : List Bytes}

theorem MasterHolds.length
    (h : MasterHolds env config files hash id bytes) :
    bytes.length = btChunkSize := by
  rcases h.found with ⟨name, data, read, -, -, hRead, rfl⟩
  exact env.length_fill (readChunk_length hRead).2

theorem Obtained.length
    (h : Obtained env config files chunk bytes) :
    bytes.length = btChunkSize := by
  cases h with
  | owned _ _ _ hHolds => exact hHolds.length
  | downloaded _ _ hSize _ => exact hSize

theorem Obtained.freeable
    (h : Obtained env config files chunk bytes) :
    chunkFreeable chunk = true := by
  unfold chunkFreeable
  cases h with
  | owned hNone _ _ _ =>
      rw [hNone]
      rfl
  | downloaded hNodes _ _ _ =>
      rw [hNodes]
      rfl

/- The piece of an obtained chunk is no larger than it. -/
theorem Obtained.piece_length
    {piece : Bytes}
    (h : Obtained env config files chunk bytes)
    (hPiece : Piece env config files' chunk piece) :
    piece.length ≤ btChunkSize := by
  cases hPiece with
  | master _ _ hHolds => exact hHolds.length.le
  | packets _ hNodes hBytes =>
      cases h with
      | owned hNone _ _ _ =>
          rw [hNone] at hNodes
          cases hNodes
          cases hBytes
          exact Nat.zero_le _
      | downloaded hNodes' hBytes' hSize _ =>
          rw [hNodes'] at hNodes
          cases hNodes
          rw [hBytes'] at hBytes
          cases hBytes
          exact hSize.le

/- And it is the right one if the chunk is found. -/
theorem Obtained.piece_iff
    (h : Obtained env config files chunk bytes) :
    Piece env config files' chunk bytes ↔
      Recovered env config files' chunk bytes := by
  have hSize := h.length
  constructor
  · intro hPiece
    cases hPiece with
    | master hId hOwned hHolds =>
        exact .master hId hOwned hHolds
    | packets hId hNodes hBytes =>
        apply Recovered.packets hId
        intro hNone
        rw [hNone] at hNodes
        cases hNodes
        cases hBytes
        cases hSize
  · intro hFound
    cases hFound with
    | master hId hOwned hHolds =>
        exact .master hId hOwned hHolds
    | packets hId hSome =>
        cases h with
        | owned hNone _ _ _ => exact absurd hNone hSome
        | downloaded hNodes hBytes _ _ =>
            exact .packets hId hNodes hBytes

/- Every number is that of a chunk. -/
theorem CompleteGet.numbered
    (h : CompleteGet env n contents)
    {k : Nat}
    (hBytes : contents[k]? = some bytes) :
    ∃ chunk, chunkWithId k n.config = some chunk ∧
      chunk ∈ downloadChunks n.config ∧ chunk.id = k ∧
        Obtained env n.config n.files chunk bytes := by
  have hk := (List.getElem?_eq_some_iff.mp hBytes).1
  have hMem :
      (k : Int) ∈
        (downloadChunks n.config).map BtChunk.id := by
    rw [h.ids.mem_iff]
    exact List.mem_map_of_mem (List.mem_range.mpr hk)
  rcases List.mem_map.mp hMem with ⟨first, hFirst, hId⟩
  have hSome :
      ∃ chunk,
        slot BtChunk.id (downloadChunks n.config) first.id =
          some chunk :=
    exists_slot hFirst
  rcases hSome with ⟨chunk, hSlot⟩
  rw [hId] at hSlot
  have hChunk := mem_of_slot hSlot
  have hIs : chunk.id = k := key_of_slot hSlot
  rcases h.chunks chunk hChunk with
    ⟨bytes', hBytes', hObtained⟩
  rw [hIs, Int.toNat_natCast, hBytes] at hBytes'
  cases hBytes'
  exact ⟨chunk, hSlot, hChunk, hIs, hObtained⟩

/- And the chunk is the only one with it. -/
theorem CompleteGet.find
    (h : CompleteGet env n contents)
    (hChunk : chunk ∈ downloadChunks n.config) :
    chunkWithId chunk.id.toNat n.config = some chunk := by
  have hMem :
      chunk.id ∈
        (List.range contents.length).map Int.ofNat := by
    rw [← h.ids.mem_iff]
    exact List.mem_map_of_mem hChunk
  rcases List.mem_map.mp hMem with ⟨k, -, hId⟩
  have hCast : ((chunk.id.toNat : Nat) : Int) = chunk.id := by
    rw [← hId]
    rfl
  have hNodup :
      ((downloadChunks n.config).map BtChunk.id).Nodup := by
    rw [h.ids.nodup_iff]
    exact List.nodup_range.map fun _ _ hEq =>
      Int.ofNat.inj hEq
  rw [hCast]
  exact slot_of_nodup hNodup hChunk

theorem CompleteGet.freeable
    (h : CompleteGet env n contents) :
    (downloadChunks n.config).all chunkFreeable = true := by
  rw [List.all_eq_true]
  intro chunk hChunk
  rcases h.chunks chunk hChunk with ⟨bytes, -, hObtained⟩
  exact hObtained.freeable

/- The loop finds the contents, and nothing else makes them. -/
theorem CompleteGet.pieces_iff
    (h : CompleteGet env n contents) :
    (∃ pieces : List Bytes,
        pieces.length = n.config.numChunks.toNat ∧
          Wrote env n.config n.files 0 [] pieces ∧
            pieces.flatten = contents.flatten) ↔
      ∀ chunk ∈ downloadChunks n.config, ∀ bytes,
        contents[chunk.id.toNat]? = some bytes →
          Recovered env n.config
            (n.files.write n.config.outputFile
              (contents.take chunk.id.toNat).flatten)
            chunk bytes := by
  have hCount :
      n.config.numChunks.toNat = contents.length := by
    rw [h.numChunks]
    rfl
  rw [hCount]
  constructor
  · rintro ⟨pieces, hLength, hWrote, hFlatten⟩
    rw [wrote_iff] at hWrote
    have hLe : ∀ piece ∈ pieces,
        piece.length ≤ btChunkSize := by
      intro piece hPiece
      rcases List.mem_iff_getElem?.mp hPiece with ⟨k, hk⟩
      rcases hWrote k piece hk with ⟨chunk, hChunk, hIs⟩
      rcases h.chunks chunk
          (List.mem_of_find?_eq_some hChunk) with
        ⟨bytes, -, hObtained⟩
      exact hObtained.piece_length hIs
    have hFull : ∀ bytes ∈ contents,
        bytes.length = btChunkSize := by
      intro bytes hBytes
      rcases List.mem_iff_getElem?.mp hBytes with ⟨k, hk⟩
      rcases h.numbered hk with ⟨chunk, -, -, -, hObtained⟩
      exact hObtained.length
    have hSame : pieces = contents :=
      eq_of_flatten_eq hLength hLe hFull hFlatten
    subst hSame
    intro chunk hChunk bytes hBytes
    rcases h.chunks chunk hChunk with ⟨bytes', hIs, hObtained⟩
    rw [hBytes] at hIs
    cases hIs
    rcases hWrote _ bytes hBytes with ⟨chunk', hFind, hPiece⟩
    rw [zero_add, h.find hChunk] at hFind
    cases hFind
    exact hObtained.piece_iff.mp hPiece
  · intro hAll
    refine ⟨contents, rfl, ?_, rfl⟩
    rw [wrote_iff]
    intro k bytes hBytes
    rcases h.numbered hBytes with
      ⟨chunk, hFind, hChunk, hId, hObtained⟩
    have hFound := hAll chunk hChunk bytes
    rw [hId, Int.toNat_natCast] at hFound
    rw [zero_add]
    exact ⟨chunk, hFind,
      hObtained.piece_iff.mpr (hFound hBytes)⟩

end

end PeerNet

------------------------------------------------------------
-- The GETs of a Run
------------------------------------------------------------

namespace PeerNet

open Runs

/-
  No packet of the chunk was ever stored, or what was stored
  is the data of its hash.
-/
def BtChunk.Received
    (env : Env)
    (chunk : BtChunk) : Prop :=
  chunk.packets = .live [] ∨
    ∃ nodes, chunk.packets = .live nodes ∧
      Verified env chunk.hash nodes

/- Every entry to `finish_get` was on such chunks. -/
def ReceivedFinishes
    (env : Env)
    (trace : List Event) : Prop :=
  ∀ entry ∈ finishes trace,
    ∀ chunk ∈ downloadChunks entry.1, chunk.Received env

/- The pairing, and what downloaded chunks have. -/
structure ReceiveInvariant
    (env : Env)
    (n : Node) : Prop where
  paired : Paired n.config
  received : Everywhere
    (fun chunk =>
      chunk.downloaded = true → chunk.Received env) n.config
  finishes : ReceivedFinishes env n.trace

section

variable {env : Env} {call : Call} {n m : Node}
variable {src : Addr} {packet : Packet}
variable {ack : Option Int} {counted : Bool}

theorem ReceivedFinishes.append
    {trace : List Event}
    (h : ReceivedFinishes env trace)
    {e : Event}
    (hNew : finishes [e] = []) :
    ReceivedFinishes env (trace ++ [e]) := by
  intro entry hEntry
  unfold PeerNet.finishes at hEntry hNew
  rw [List.filterMap_append, hNew, List.append_nil] at hEntry
  exact h entry hEntry

/- A list that is counted in full is entered. -/
theorem ReceiveInvariant.entered
    (h : ReceiveInvariant env n)
    (hAll : n.config.numDownloaded = n.config.numChunks) :
    ReceivedFinishes env
      (n.trace ++ [.finishGet n.config n.files]) := by
  intro entry hEntry
  have hAppend :
      PeerNet.finishes
          (n.trace ++ [.finishGet n.config n.files]) =
        PeerNet.finishes n.trace ++
          [(n.config, n.files)] := by
    simp [PeerNet.finishes]
  rw [hAppend] at hEntry
  rcases List.mem_append.mp hEntry with hOld | hLast
  · exact h.finishes entry hOld
  · rw [List.mem_singleton.mp hLast]
    intro chunk hChunk
    rcases List.mem_filterMap.mp hChunk with
      ⟨r, hListed, hLive⟩
    rcases h.paired.whole hAll hListed with
      ⟨chunk', hLive', hDone⟩
    rw [hLive] at hLive'
    cases hLive'
    exact h.received r chunk hLive hDone

theorem ReceiveInvariant.move
    (hClock : PositiveClock env)
    (h : ReceiveInvariant env n)
    (hMove : Move env call n m) :
    ReceiveInvariant env m := by
  refine ⟨h.paired.move hClock hMove, ?_, ?_⟩
  · have hOld := h.received
    cases hMove with
    | get hGet =>
        cases hGet with
        | dropped _ => exact hOld.dropDownload
        | _ => exact hOld
    | gaveUp _ cur r chunk packets now _ _ _ _ =>
        apply hOld.setChunk r
        intro chunk' _ hDone
        cases hDone
    | fetched _ p q r chunk _ _ _ _ _ _ _ =>
        apply hOld.setChunk r
        exact fun _ _ _ => .inl rfl
    | announced _ r p _ _ =>
        apply hOld.setChunk r
        exact fun chunk hLive => hOld r chunk hLive
    | loaded _ chunkfile outputfile items _ _ =>
        apply hOld.load
        exact fun _ hAdded _ => .inl hAdded.packets
    | _ => exact hOld
  · have hOld := h.finishes
    cases hMove with
    | get hGet =>
        cases hGet with
        | entered hAll => exact h.entered hAll
        | files g => exact hOld
        | got => exact hOld.append rfl
        | dropped _ => exact hOld
    | fetched _ p q r chunk _ _ _ _ _ _ _ =>
        exact hOld.append rfl
    | _ => exact hOld

theorem receiveInvariant_kept
    (call : Call)
    (hClock : PositiveClock env) :
    Kept env call (ReceiveInvariant env) where
  paired := fun _ h => h.paired
  move := fun _ _ h hMove => h.move hClock hMove
  push := fun _ _ h => ⟨h.paired, h.received, h.finishes⟩
  served := by
    rintro n m h ⟨upload, queue, reads, rfl⟩
    exact ⟨h.paired.frame
      (.ofFields rfl rfl rfl rfl rfl rfl rfl), h.received,
      h.finishes⟩
  halt := fun _ _ _ h => ⟨h.paired, h.received, h.finishes⟩

/- DATA is stored in chunks that are still needed. -/
theorem ReceiveInvariant.data
    (hClock : PositiveClock env)
    (h : ReceiveInvariant env n)
    (hStep : DataStep env src packet n ack counted m) :
    ReceiveInvariant env m := by
  have hNeeded :
      ∀ {p r chunk nodes},
        Taking n.config src packet p r chunk nodes →
          (chunk.take nodes packet).downloaded = false := by
    intro p r chunk nodes hTaking
    rcases h.paired.chunk_of_target
        hTaking.toFetching.target with
      ⟨chunk', hLive, _, hNeeded⟩
    rw [hTaking.live] at hLive
    cases hLive
    rw [BtChunk.take_downloaded]
    exact hNeeded
  have hFinish :
      ∀ r packets, ReceivedFinishes env
        (n.trace ++ [.finishChunk r packets]) :=
    fun _ _ => h.finishes.append rfl
  refine ⟨h.paired.data hClock hStep, ?_, ?_⟩
  · have hFilled :
        ∀ {p q r chunk nodes},
          Filling n.config src packet p q r chunk nodes →
            Everywhere
              (fun chunk =>
                chunk.downloaded = true →
                  chunk.Received env)
              (n.filled env packet p q r chunk
                nodes).config := by
      intro p q r chunk nodes hFilling
      apply h.received.filled
      intro hDone
      rw [hNeeded hFilling.toTaking] at hDone
      cases hDone
    cases hStep with
    | ignored _ => exact h.received
    | refused p r _ _ => exact h.received
    | stored p r chunk nodes hTaking _ =>
        apply h.received.stored
        intro hDone
        rw [hNeeded hTaking] at hDone
        cases hDone
    | stopped p q r chunk nodes g f hFilling _ =>
        exact hFilled hFilling
    | rejected p q r chunk nodes hFilling _ =>
        exact hFilled hFilling
    | unrecorded p q r chunk nodes hFilling _ _ =>
        exact hFilled hFilling
    | recorded p q r chunk nodes id hFilling hVerified _ _ =>
        apply (hFilled hFilling).setChunk r
        intro chunk' hLive _
        rw [filled_chunk hFilling.live] at hLive
        cases hLive
        refine .inr ⟨storedNodes nodes packet, ?_, ?_⟩
        · exact BtChunk.take_packets hFilling.packets packet
        · change Verified env (chunk.take nodes packet).hash _
          rw [BtChunk.take_hash]
          exact hVerified
  · cases hStep with
    | ignored _ => exact h.finishes
    | refused p r _ _ => exact h.finishes
    | stored p r chunk nodes _ _ => exact h.finishes
    | stopped p q r chunk nodes g f _ _ => exact hFinish _ _
    | rejected p q r chunk nodes _ _ =>
        exact (hFinish _ _).append rfl
    | unrecorded p q r chunk nodes _ _ _ =>
        exact (hFinish _ _).append rfl
    | recorded p q r chunk nodes id _ _ _ _ =>
        exact hFinish _ _

/-
  In a run, `finish_get` is entered on chunks whose packets
  were verified, and on chunks that have none.
-/
theorem received_of_run
    (hClock : PositiveClock env)
    {n₀ : Node}
    (hStart : Configured n₀)
    (hRun : Run env n₀ n)
    {config : BtConfig}
    {files : Files}
    (hEntry : (config, files) ∈ finishes n.trace)
    {chunk : BtChunk}
    (hChunk : chunk ∈ downloadChunks config) :
    chunk.Received env := by
  have hInvariant : ReceiveInvariant env n := by
    apply hRun.invariant
    · refine ⟨hStart.paired, ?_, ?_⟩
      · intro r chunk hLive
        rw [hStart.empty r] at hLive
        cases hLive
      · rw [hStart.trace]
        nofun
    · intro k e h hPromised
      apply (receiveInvariant_kept _ hClock).step
      · rintro chunkfile outputfile rfl
        exact hPromised
      · rintro src packet rfl ack counted m hStep
        exact h.data hClock hStep
      · exact h
  exact hInvariant.finishes _ hEntry chunk hChunk

end

end PeerNet

------------------------------------------------------------
-- An Output File of Its Own
------------------------------------------------------------

namespace PeerNet

/- The output file is no file that `finish_get` reads. -/
structure Apart
    (env : Env)
    (n : Node) : Prop where
  hasChunkFile :
    n.config.hasChunkFile ≠ n.config.outputFile
  chunkFile : n.config.chunkFile ≠ n.config.outputFile
  dataFile : ∀ name,
    masterDataFile env n.files n.config = .ok (some name) →
      name ≠ n.config.outputFile

section

variable {env : Env} {n : Node} {chunk : BtChunk}
variable {bytes pre : Bytes}

/- Then what it finds does not depend on what it wrote. -/
theorem Apart.recovered_iff
    (h : Apart env n) :
    Recovered env n.config
        (n.files.write n.config.outputFile pre) chunk
        bytes ↔
      Recovered env n.config n.files chunk bytes := by
  have hHas :
      hasChunk env
          (n.files.write n.config.outputFile pre) n.config
          chunk.hash =
        hasChunk env n.files n.config chunk.hash := by
    unfold hasChunk
    rw [Files.content_write_of_ne h.hasChunkFile pre]
  have hName :
      masterDataFile env
          (n.files.write n.config.outputFile pre) n.config =
        masterDataFile env n.files n.config := by
    unfold masterDataFile
    rw [Files.content_write_of_ne h.chunkFile pre]
  have hHolds :
      ∀ id,
        MasterHolds env n.config
            (n.files.write n.config.outputFile pre)
            chunk.hash id bytes ↔
          MasterHolds env n.config n.files chunk.hash id
            bytes := by
    intro id
    constructor
    · rintro ⟨⟨name, data, read, hIs, hData, hRead⟩, hHash⟩
      rw [hName] at hIs
      rw [Files.content_write_of_ne (h.dataFile name hIs)]
        at hData
      exact ⟨⟨name, data, read, hIs, hData, hRead⟩, hHash⟩
    · rintro ⟨⟨name, data, read, hIs, hData, hRead⟩, hHash⟩
      refine ⟨⟨name, data, read, ?_, ?_, hRead⟩, hHash⟩
      · rw [hName]
        exact hIs
      · rw [Files.content_write_of_ne (h.dataFile name hIs)]
        exact hData
  constructor
  · intro hFound
    cases hFound with
    | packets hId hSome =>
        rw [hHas] at hId
        exact .packets hId hSome
    | master hId hOwned hBytes =>
        rw [hHas] at hId
        exact .master hId hOwned ((hHolds _).mp hBytes)
  · intro hFound
    cases hFound with
    | packets hId hSome =>
        rw [← hHas] at hId
        exact .packets hId hSome
    | master hId hOwned hBytes =>
        rw [← hHas] at hId
        exact .master hId hOwned ((hHolds _).mpr hBytes)

end

end PeerNet

------------------------------------------------------------
-- The Output File
------------------------------------------------------------

namespace PeerNet

open Reassembly

/-
  The output file of a completed GET is the owned chunks and
  the downloaded packets if and only if it opens and, when
  the loop comes to a chunk, its bytes are what the files
  hold of it.
-/
theorem finishGet_gathers_iff
    {env : Env}
    {n : Node}
    {contents : List Bytes}
    (h : CompleteGet env n contents) :
    Gathered env n contents ↔
      n.files.writable n.config.outputFile = true ∧
        ∀ chunk ∈ downloadChunks n.config, ∀ bytes,
          contents[chunk.id.toNat]? = some bytes →
            Recovered env n.config
              (n.files.write n.config.outputFile
                (contents.take chunk.id.toNat).flatten)
              chunk bytes := by
  rw [gathered_iff h.freeable, h.pieces_iff]

/- One chunk of zeros, downloaded. -/
def zerosBought : BtChunk where
  id := 0
  hash := Vector.replicate 20 0
  nextExpected := 355
  downloaded := true
  totalData := btChunkSize
  peer := none
  peers := [0]
  packets := .live (nodesOf ((chunkParts zeroChunk).map some))

/-
  `finish_chunk` has recorded the chunk, which is number 0 of
  the master-chunk file. The master data file is `data`.
-/
def boughtNode
    (data : Bytes) : Node :=
  { sharingNode data with
    config :=
      { (sharingNode data).config with
        numChunks := 1
        numDownloaded := 1
        download := [0]
        chunk := fun r =>
          if r = 0 then some zerosBought else none
        nextChunk := 1 } }

theorem length_zeroChunk :
    zeroChunk.length = btChunkSize :=
  List.length_replicate

theorem boughtNode_completed
    (data : Bytes) :
    CompleteGet stillEnv (boughtNode data) [zeroChunk] where
  numChunks := rfl
  ids := .refl _
  chunks := by
    intro chunk hChunk
    rw [List.mem_singleton.mp hChunk]
    refine ⟨zeroChunk, rfl, .downloaded rfl ?_
      length_zeroChunk
      ⟨zeroChunk,
        writeToBuffer_chunkParts stillEnv length_zeroChunk,
        rfl⟩⟩
    rw [nodesOf, packetBytes_nodesFrom, flatten_parts,
      List.take_of_length_le length_zeroChunk.le]

theorem boughtNode_shares
    (data : Bytes) :
    Shares stillEnv (boughtNode data) data
      (Vector.replicate 20 0) 0 where
  id := (sharingNode_shares data).id
  master := (sharingNode_shares data).master

theorem boughtNode_dataFile
    (data : Bytes) :
    masterDataFile stillEnv (boughtNode data).files
        (boughtNode data).config =
      .ok (some [53]) :=
  sharingNode_dataFile data

/- The output file has a name of its own. -/
theorem boughtNode_apart
    (data : Bytes) :
    Apart stillEnv (boughtNode data) where
  hasChunkFile := by
    change ([4] : Path) ≠ [3]
    decide
  chunkFile := by
    change ([1] : Path) ≠ [3]
    decide
  dataFile := by
    intro name hName
    rw [boughtNode_dataFile] at hName
    cases hName
    change ([53] : Path) ≠ [3]
    decide

/- The master data file holds the zeros as well. -/
theorem finishGet_gathers_zeros :
    Gathered stillEnv (boughtNode zeroChunk) [zeroChunk] := by
  apply (finishGet_gathers_iff
    (boughtNode_completed zeroChunk)).mpr
  refine ⟨rfl, ?_⟩
  intro chunk hChunk bytes hBytes
  rw [List.mem_singleton.mp hChunk] at hBytes ⊢
  cases hBytes
  apply (boughtNode_apart zeroChunk).recovered_iff.mpr
  have hRead :
      readChunk zeroChunk 0 = .ok (some zeroChunk) := by
    have hPos : 0 * btChunkSize < zeroChunk.length := by
      rw [length_zeroChunk]
      decide
    have hChunk := readChunk_published (i := 0) hPos
    rw [Nat.zero_mul, List.drop_zero,
      List.take_of_length_le length_zeroChunk.le] at hChunk
    exact hChunk
  apply Recovered.master (boughtNode_shares zeroChunk).id
  · decide
  · exact ⟨⟨[53], zeroChunk, zeroChunk,
      boughtNode_dataFile zeroChunk, rfl, hRead,
      (fill_full stillEnv length_zeroChunk).symm⟩, rfl⟩

/- It holds nothing, and the downloaded zeros are lost. -/
theorem download_not_gathered :
    ¬ ∀ (env : Env) (n : Node) (contents : List Bytes),
      CompleteGet env n contents →
        n.files.writable n.config.outputFile = true →
          Gathered env n contents := by
  intro hClaim
  have hCompleted := boughtNode_completed []
  have hGathered :=
    hClaim stillEnv (boughtNode []) [zeroChunk] hCompleted rfl
  rw [gathered_iff hCompleted.freeable,
    hCompleted.pieces_iff] at hGathered
  have hFound :=
    hGathered.2 zerosBought List.mem_cons_self zeroChunk rfl
  have hRecovered :=
    (boughtNode_apart []).recovered_iff.mp hFound
  have hId :
      hasChunk stillEnv (boughtNode []).files
          (boughtNode []).config zerosBought.hash =
        .ok 0 :=
    (boughtNode_shares []).id
  cases hRecovered with
  | packets hNone _ =>
      rw [hId] at hNone
      cases hNone
  | master _ _ hHolds =>
      rcases hHolds.found with
        ⟨name, data, read, hName, hData, hRead, -⟩
      rw [boughtNode_dataFile] at hName
      cases hName
      cases hData
      unfold readChunk at hRead
      simp only [List.drop_nil, List.take_nil] at hRead
      split at hRead
      · cases hRead
      · split at hRead <;> cases hRead

/- Owned chunks are found, so the downloaded ones decide. -/
theorem finishGet_gathers_apart
    {env : Env}
    {n : Node}
    {contents : List Bytes}
    (h : CompleteGet env n contents)
    (hApart : Apart env n) :
    Gathered env n contents ↔
      n.files.writable n.config.outputFile = true ∧
        ∀ chunk ∈ downloadChunks n.config,
          chunk.packets ≠ .live [] → ∀ bytes,
            contents[chunk.id.toNat]? = some bytes →
              Recovered env n.config n.files chunk
                bytes := by
  rw [gathered_iff h.freeable, h.pieces_iff]
  apply and_congr_right
  intro _
  constructor
  · intro hAll chunk hChunk _ bytes hBytes
    exact hApart.recovered_iff.mp
      (hAll chunk hChunk bytes hBytes)
  · intro hAll chunk hChunk bytes hBytes
    apply hApart.recovered_iff.mpr
    rcases h.chunks chunk hChunk with ⟨bytes', hIs, hObtained⟩
    rw [hBytes] at hIs
    cases hIs
    cases hObtained with
    | owned _ hId hOwned hHolds =>
        exact .master hId hOwned hHolds
    | downloaded hNodes hPackets hSize _ =>
        apply hAll chunk hChunk _ bytes hBytes
        intro hNone
        rw [hNone] at hNodes
        cases hNodes
        cases hPackets
        cases hSize

end PeerNet
