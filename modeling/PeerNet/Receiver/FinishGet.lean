import PeerNet.Receiver.Steps

/-
  What `finish_get` leaves of the download list.

  `finish_get` frees the list behind its loop. Where the
  output file does not open, and where a chunk that the
  has-chunk file names is not in the master data file, it
  returns before that, and the list stays.

  Main declarations:
    * `InMaster`
    * `RunsThrough`
    * `Returned`
    * `finishGet_returned`
-/

------------------------------------------------------------
-- Reading the Master Data File
------------------------------------------------------------

namespace PeerNet

/-
  The master data file has a name, opens and holds, at the
  place of the id, a chunk with the hash.
-/
structure InMaster
    (env : Env)
    (config : BtConfig)
    (files : Files)
    (hash : Hash)
    (id : Int) : Prop where
  named : masterDataFile env files config ≠ .ok none
  there : ∀ name,
    masterDataFile env files config = .ok (some name) →
      ∃ data, files.content name = some data ∧
        readChunk data id ≠ .ok none ∧
          ∀ bytes, readChunk data id = .ok (some bytes) →
            hashEqual hash
                (env.shahash (env.fill btChunkSize bytes)) =
              true

section

variable {env : Env} {config : BtConfig} {files : Files}
variable {hash : Hash} {id : Int}

/- Reading it is an error otherwise. -/
theorem InMaster.of_bytes
    (hBytes :
      masterBytes env files config hash id ≠ .ok none) :
    InMaster env config files hash id := by
  constructor
  · intro hName
    apply hBytes
    unfold masterBytes
    rw [hName]
    rfl
  · intro name hName
    unfold masterBytes at hBytes
    rw [hName] at hBytes
    dsimp only [bind, Except.bind] at hBytes
    cases hData : files.content name with
    | none => exact absurd (by rw [hData]; rfl) hBytes
    | some data =>
        rw [hData] at hBytes
        dsimp only at hBytes
        refine ⟨data, rfl, ?_, ?_⟩
        · intro hRead
          rw [hRead] at hBytes
          exact hBytes rfl
        · intro bytes hRead
          rw [hRead] at hBytes
          by_contra hOther
          exact hBytes (if_neg hOther)

/- And it is no error where the chunk is there. -/
theorem InMaster.bytes
    (h : InMaster env config files hash id) :
    masterBytes env files config hash id ≠ .ok none := by
  intro hNone
  unfold masterBytes at hNone
  cases hName : masterDataFile env files config with
  | error f =>
      rw [hName] at hNone
      cases hNone
  | ok found =>
      rw [hName] at hNone
      dsimp only [bind, Except.bind] at hNone
      cases found with
      | none => exact h.named hName
      | some name =>
          rcases h.there name hName with
            ⟨data, hData, hSome, hHash⟩
          dsimp only at hNone
          rw [hData] at hNone
          dsimp only at hNone
          cases hRead : readChunk data id with
          | error f =>
              rw [hRead] at hNone
              cases hNone
          | ok bytes =>
              rw [hRead] at hNone
              cases bytes with
              | none => exact hSome hRead
              | some bytes =>
                  dsimp only at hNone
                  rw [if_pos (hHash bytes hRead)] at hNone
                  cases hNone

/- It has exactly these bytes there. -/
structure MasterHolds
    (env : Env)
    (config : BtConfig)
    (files : Files)
    (hash : Hash)
    (id : Int)
    (bytes : Bytes) : Prop where
  found : ∃ name data read,
    masterDataFile env files config = .ok (some name) ∧
      files.content name = some data ∧
        readChunk data id = .ok (some read) ∧
          bytes = env.fill btChunkSize read
  hash : hashEqual hash (env.shahash bytes) = true

theorem masterBytes_eq_some_iff
    {bytes : Bytes} :
    masterBytes env files config hash id = .ok (some bytes) ↔
      MasterHolds env config files hash id bytes := by
  unfold masterBytes
  constructor
  · intro hBytes
    cases hName : masterDataFile env files config with
    | error f =>
        rw [hName] at hBytes
        cases hBytes
    | ok found =>
    rw [hName] at hBytes
    dsimp only [bind, Except.bind] at hBytes
    cases found with
    | none => cases hBytes
    | some name =>
    dsimp only at hBytes
    cases hData : files.content name with
    | none =>
        rw [hData] at hBytes
        cases hBytes
    | some data =>
    rw [hData] at hBytes
    dsimp only at hBytes
    cases hRead : readChunk data id with
    | error f =>
        rw [hRead] at hBytes
        cases hBytes
    | ok found =>
    rw [hRead] at hBytes
    dsimp only at hBytes
    cases found with
    | none => cases hBytes
    | some read =>
    dsimp only at hBytes
    split at hBytes
    · next hSame =>
        cases hBytes
        exact ⟨⟨name, data, read, hName, hData, hRead, rfl⟩,
          hSame⟩
    · cases hBytes
  · rintro ⟨⟨name, data, read, hName, hData, hRead, rfl⟩,
      hSame⟩
    rw [hName]
    dsimp only [bind, Except.bind]
    rw [hData]
    dsimp only
    rw [hRead]
    exact if_pos hSame

end

end PeerNet

------------------------------------------------------------
-- The Loop
------------------------------------------------------------

namespace PeerNet

open Prog

/- What `finish_get` writes for a chunk. -/
inductive Piece
    (env : Env)
    (config : BtConfig)
    (files : Files)
    (chunk : BtChunk) : Bytes → Prop
| master {id : Int} {bytes : Bytes} :
    hasChunk env files config chunk.hash = .ok id →
    id ≠ -1 →
    MasterHolds env config files chunk.hash id bytes →
    Piece env config files chunk bytes
| packets {nodes : List BtPacket} {bytes : Bytes} :
    hasChunk env files config chunk.hash = .ok (-1) →
    chunk.packets = .live nodes →
    packetBytes nodes = .ok bytes →
    Piece env config files chunk bytes

/- One chunk does not make the loop return. -/
def Readable
    (env : Env)
    (config : BtConfig)
    (files : Files)
    (chunk : BtChunk) : Prop :=
  ∀ id, hasChunk env files config chunk.hash = .ok id →
    id ≠ -1 → InMaster env config files chunk.hash id

/-
  Nor do the next ones, from number `i` on, each looked for
  in the files as the chunks before it have left them.
-/
def Unbroken
    (env : Env)
    (config : BtConfig) : Nat → Int → Files → Prop
| 0, _, _ => True
| count + 1, i, files =>
    ∀ chunk, chunkWithId i config = some chunk →
      Readable env config files chunk ∧
        ∀ bytes, Piece env config files chunk bytes →
          Unbroken env config count (i + 1)
            (files.append config.outputFile bytes)

section

variable {env : Env} {n : Node} {config : BtConfig}
variable {files : Files} {chunk : BtChunk}

/- A chunk has one piece. -/
theorem Piece.unique
    {bytes bytes' : Bytes}
    (h : Piece env config files chunk bytes)
    (h' : Piece env config files chunk bytes') :
    bytes = bytes' := by
  cases h with
  | master hId hOwned hBytes =>
      cases h' with
      | master hId' _ hBytes' =>
          rw [hId] at hId'
          cases hId'
          rw [← masterBytes_eq_some_iff] at hBytes hBytes'
          rw [hBytes] at hBytes'
          cases hBytes'
          rfl
      | packets hId' _ _ =>
          rw [hId] at hId'
          cases hId'
          exact absurd rfl hOwned
  | packets hId hNodes hBytes =>
      cases h' with
      | master hId' hOwned _ =>
          rw [hId] at hId'
          cases hId'
          exact absurd rfl hOwned
      | packets _ hNodes' hBytes' =>
          rw [hNodes] at hNodes'
          cases hNodes'
          rw [hBytes] at hBytes'
          cases hBytes'
          rfl

/- One round of the loop. -/
theorem finishGetChunk_piece
    (env : Env)
    (i : Int)
    (n : Node) :
    wp (finishGetChunk env i)
      (fun go m => ∃ chunk,
        chunkWithId i n.config = some chunk ∧
          (go = true →
            Readable env n.config n.files chunk ∧
              ∃ bytes,
                Piece env n.config n.files chunk bytes ∧
                  m = n.onFiles
                    (Files.append n.config.outputFile
                      bytes)) ∧
          (go = false →
            ¬ Readable env n.config n.files chunk ∧ m = n))
      (fun f _ => f ≠ .whohasOverflow) n := by
  unfold finishGetChunk
  rw [wp_bind, wp_get]
  cases hChunk : chunkWithId i n.config with
  | none => exact nofun
  | some next =>
      dsimp only
      rw [wp_bind, wp_lift]
      refine ⟨fun id hId => ?_, fun f hFault => ?_⟩
      · rw [wp_ite]
        refine ⟨fun hOwned => ?_, fun hLacks => ?_⟩
        · rw [wp_bind, wp_lift]
          refine ⟨fun found hBytes => ?_, fun f hFault => ?_⟩
          · cases found with
            | none =>
                refine
                  ⟨next, rfl, nofun, fun _ => ⟨?_, rfl⟩⟩
                intro hReadable
                exact (hReadable id hId hOwned).bytes hBytes
            | some bytes =>
                refine ⟨next, rfl, fun _ => ⟨?_, bytes,
                  .master hId hOwned
                    (masterBytes_eq_some_iff.mp hBytes),
                  rfl⟩, nofun⟩
                intro id' hId' _
                rw [hId] at hId'
                cases hId'
                apply InMaster.of_bytes
                rw [hBytes]
                nofun
          · rintro rfl
            exact absurd
              (local_masterBytes _ _ _ _ _ _ hFault) nofun
        · have hNone : id = -1 := not_not.mp hLacks
          subst hNone
          have hReadable :
              Readable env n.config n.files next := by
            intro id hId' hOwned
            rw [hId] at hId'
            cases hId'
            exact absurd rfl hOwned
          rw [wp_bind]
          unfold writeToFile
          split
          · exact nofun
          · next nodes hNodes =>
              rw [wp_bind, wp_lift]
              refine
                ⟨fun bytes hBytes => ?_, fun f hFault => ?_⟩
              · rw [wp_bind, wp_get, wp_modify]
                exact ⟨next, rfl, fun _ => ⟨hReadable, bytes,
                  .packets hId hNodes hBytes, rfl⟩, nofun⟩
              · rintro rfl
                exact absurd
                  (local_packetBytes _ _ hFault) nofun
      · rintro rfl
        exact absurd (local_hasChunk _ _ _ _ _ hFault) nofun

/- The loop runs through if and only if nothing breaks it. -/
theorem finishGetLoop_unbroken
    (env : Env)
    (count : Nat)
    (i : Int)
    (n : Node) :
    wp (finishGetLoop env count i)
      (fun go m =>
        OnlyFiles n m ∧
          (go = true ↔
            Unbroken env n.config count i n.files))
      (fun f _ => f ≠ .whohasOverflow) n := by
  induction count generalizing i n with
  | zero =>
      exact ⟨.refl n, iff_of_true rfl trivial⟩
  | succ count ih =>
      unfold finishGetLoop
      rw [wp_bind]
      apply wp_mono (finishGetChunk_piece env i n)
      · rintro go m ⟨chunk, hChunk, hGo, hStop⟩
        rw [wp_ite]
        constructor
        · intro hOn
          rcases hGo hOn with ⟨hReadable, bytes, hPiece, rfl⟩
          apply wp_mono (ih (i + 1) _)
          · rintro go' m ⟨hFiles, hRest⟩
            refine ⟨.trans ⟨_, rfl⟩ hFiles, hRest.trans ?_⟩
            constructor
            · intro hUnbroken chunk' hChunk'
              rw [hChunk] at hChunk'
              cases hChunk'
              refine ⟨hReadable, fun bytes' hPiece' => ?_⟩
              rw [hPiece'.unique hPiece]
              exact hUnbroken
            · intro hUnbroken
              exact (hUnbroken chunk hChunk).2 bytes hPiece
          · exact fun _ _ h => h
        · intro hOff
          rcases hStop (by simpa using hOff) with
            ⟨hBroken, rfl⟩
          refine ⟨.refl m, iff_of_false Bool.false_ne_true ?_⟩
          intro hUnbroken
          exact hBroken (hUnbroken chunk hChunk).1
      · exact fun _ _ h => h

end

end PeerNet

------------------------------------------------------------
-- The Call
------------------------------------------------------------

namespace PeerNet

open Prog

/- The entries to `finish_get` in a trace. -/
def finishes
    (trace : List Event) : List (BtConfig × Files) :=
  trace.filterMap fun
    | .finishGet config files => some (config, files)
    | _ => none

/-
  From here `finish_get` gets to the end of its loop, or has
  no list to free.
-/
def RunsThrough
    (env : Env)
    (config : BtConfig)
    (files : Files) : Prop :=
  config.download = [] ∨
    files.writable config.outputFile = true ∧
      Unbroken env config config.numChunks.toNat 0
        (files.write config.outputFile [])

/- `finish_get`, entered in `n`, has returned in `m`. -/
structure Returned
    (env : Env)
    (n m : Node) : Prop where
  entered :
    finishes m.trace =
      finishes n.trace ++ [(n.config, n.files)]
  freed :
    m.config.download = [] ↔
      RunsThrough env n.config n.files
  numChunks : m.config.numChunks = n.config.numChunks
  numDownloaded :
    m.config.numDownloaded = n.config.numDownloaded
  fault : m.fault = n.fault

/- The list stays where `finish_get` returns early. -/
theorem finishGet_returned
    (env : Env)
    (n : Node) :
    wp (finishGet env)
      (fun _ m => Returned env n m)
      (fun f _ => f ≠ .whohasOverflow) n := by
  have hEntered :
      finishes (n.trace ++ [.finishGet n.config n.files]) =
        finishes n.trace ++ [(n.config, n.files)] := by
    simp [finishes]
  unfold finishGet
  rw [wp_bind, wp_get, wp_bind, wp_modify, wp_ite]
  constructor
  · intro hOpen
    rw [wp_bind, wp_modify, wp_bind]
    apply wp_mono (finishGetLoop_unbroken env _ 0 _)
    · rintro go m ⟨⟨g, rfl⟩, hGo⟩
      rw [wp_ite]
      constructor
      · intro hOn
        unfold delReceiverList
        rw [wp_bind, wp_modify, wp_bind, wp_get, wp_ite]
        refine ⟨fun _ => ?_, fun _ => nofun⟩
        exact
          { entered := by
              simp [finishes]
            freed := iff_of_true rfl
              (.inr ⟨hOpen, hGo.mp hOn⟩)
            numChunks := rfl
            numDownloaded := rfl
            fault := rfl }
      · intro hOff
        have hBroken := mt hGo.mpr hOff
        exact
          { entered := hEntered
            freed :=
              ⟨.inl, fun h => h.elim id
                fun hAll => absurd hAll.2 hBroken⟩
            numChunks := rfl
            numDownloaded := rfl
            fault := rfl }
    · exact fun _ _ h => h
  · intro hClosed
    exact
      { entered := hEntered
        freed :=
          ⟨.inl, fun h => h.elim id
            fun hAll => absurd hAll.1 hClosed⟩
        numChunks := rfl
        numDownloaded := rfl
        fault := rfl }

end PeerNet
