import PeerNet.Receiver.Steps

/-
  The links between peers and chunks, over whole runs.

  A process comes to its loop with its peer list reset and
  no download. Its callers promise that a user GET comes
  only between downloads and that announcements and DATA
  come from listed peers. `links_of_run` says what then
  holds in every state: the two ends of each link agree,
  they agree with the flag and the time of the peer, no link
  leads to a freed chunk, and `finish_get` is entered on
  downloaded chunks only.

  Main declarations:
    * `Configured`
    * `Promised`
    * `Linked`
    * `links_of_run`
-/

------------------------------------------------------------
-- Runs
------------------------------------------------------------

namespace PeerNet

open Runs

/-
  A process that enters its loop, after `bt_init`, the
  command line and `reset_peers`.
-/
structure Configured
    (n : Node) : Prop where
  running : n.fault = none
  trace : n.trace = []
  queue : n.queue = []
  distinct : DistinctAddrs n.config
  download : n.config.download = []
  upload : n.config.upload = []
  empty : ∀ r, n.config.chunk r = none
  idle : ∀ p ∈ n.config.peers,
    (n.config.peer p).downloading = false
  free : ∀ p ∈ n.config.peers,
    (n.config.peer p).chunk = none
  silent : ∀ p ∈ n.config.peers,
    (n.config.peer p).lastResponse = -1
  curDownload : n.config.curDownload = 0

/- What the callers of the receiving side promise. -/
def Promised
    (n : Node) : NodeEvent → Prop
| .userGet _ _ => n.config.download = []
| .ihave src _ => (peerWithAddr src n.config).isSome
| .data src _ => (peerWithAddr src n.config).isSome
| _ => True

abbrev Run
    (env : Env) : Node → Node → Prop :=
  Reaches (Node.step env) Promised

theorem Configured.paired
    {n : Node}
    (h : Configured n) :
    Paired n.config := by
  have hTarget : n.config.target = fun _ => none := by
    funext p
    by_cases hp : p ∈ n.config.peers
    · simp [BtConfig.target, hp, h.free p hp]
    · simp [BtConfig.target, hp]
  have hOwner : n.config.owner = fun _ => none := by
    funext r
    simp [BtConfig.owner, h.empty r]
  exact
    { distinct := h.distinct
      nodup := by simp [h.download]
      live := by simp [h.empty, h.download]
      fresh := by simp [h.download]
      matched := by
        rw [hTarget, hOwner]
        exact .empty
      busy := by
        intro p hp
        rw [hTarget, h.idle p hp]
        rfl
      awaited := by simp [hTarget]
      timed := fun p hp hNot => absurd (h.silent p hp) hNot
      needed := by simp [hOwner]
      announced := by
        intro r
        simp [BtConfig.announcers, h.empty r]
      counted := by simp [h.download] }

end PeerNet

------------------------------------------------------------
-- Both Ends of a Link
------------------------------------------------------------

namespace PeerNet

/- The links of a configuration, in the source's terms. -/
structure Linked
    (c : BtConfig) : Prop where
  busy : ∀ p ∈ c.peers,
    (c.peer p).downloading = true ↔
      (c.peer p).chunk.isSome
  awaited : ∀ p ∈ c.peers,
    (c.peer p).chunk.isSome ↔
      (c.peer p).lastResponse ≠ -1
  ends : ∀ p ∈ c.peers, ∀ r,
    (c.peer p).chunk = some r ↔
      r ∈ c.download ∧ ∃ chunk,
        c.chunk r = some chunk ∧ chunk.peer = some p
  needed : ∀ r chunk p,
    c.chunk r = some chunk → chunk.peer = some p →
      p ∈ c.peers ∧ chunk.downloaded = false

/- `finish_get` was entered with all chunks downloaded. -/
def WholeFinishes
    (trace : List Event) : Prop :=
  ∀ c files, .finishGet c files ∈ trace →
    ∀ r ∈ c.download, ∃ chunk,
      c.chunk r = some chunk ∧ chunk.downloaded = true

theorem Paired.linked
    {c : BtConfig}
    (h : Paired c) :
    Linked c where
  busy := by
    intro p hp
    rw [h.busy p hp, BtConfig.target_of_mem hp]
  awaited := by
    intro p hp
    rw [← BtConfig.target_of_mem hp]
    exact ⟨h.awaited p hp, h.timed p hp⟩
  ends := by
    intro p hp r
    constructor
    · intro hChunk
      rw [← BtConfig.target_of_mem hp] at hChunk
      rcases h.chunk_of_target hChunk with
        ⟨chunk, hLive, hBack, _⟩
      exact ⟨(h.live r).mp (by simp [hLive]), chunk,
        hLive, hBack⟩
    · rintro ⟨_, chunk, hLive, hBack⟩
      rw [← BtConfig.target_of_mem hp]
      apply (h.matched p r).mpr
      rw [BtConfig.owner_of_live hLive, hBack]
  needed := by
    intro r chunk p hLive hBack
    have hOwner : c.owner r = some p := by
      rw [BtConfig.owner_of_live hLive, hBack]
    have hTarget := (h.matched p r).mpr hOwner
    have hDone := h.needed r (by simp [hOwner])
    rw [BtConfig.done_of_live hLive] at hDone
    refine ⟨?_, hDone⟩
    by_contra hNot
    simp [BtConfig.target, hNot] at hTarget

/- A counted list holds downloaded chunks. -/
theorem Paired.whole
    {c : BtConfig}
    (h : Paired c)
    (hAll : c.numDownloaded = c.numChunks)
    {r : ChunkRef}
    (hListed : r ∈ c.download) :
    ∃ chunk, c.chunk r = some chunk ∧
      chunk.downloaded = true := by
  have hDone := h.all_done hAll r hListed
  rcases Option.isSome_iff_exists.mp
      ((h.live r).mpr hListed) with ⟨chunk, hLive⟩
  rw [BtConfig.done_of_live hLive] at hDone
  exact ⟨chunk, hLive, hDone⟩

end PeerNet

------------------------------------------------------------
-- The Invariant of Runs
------------------------------------------------------------

namespace PeerNet

open Runs

/- The pairing, with what the trace and the fault tell. -/
structure LinkInvariant
    (n : Node) : Prop where
  paired : Paired n.config
  whole : WholeFinishes n.trace
  fault : ∀ f, n.fault = some f → f.isPointer = false

variable {env : Env} {call : Call}

theorem WholeFinishes.append
    {trace : List Event}
    (h : WholeFinishes trace)
    {e : Event}
    (hNew : ∀ c files, e = .finishGet c files →
      ∀ r ∈ c.download, ∃ chunk,
        c.chunk r = some chunk ∧ chunk.downloaded = true) :
    WholeFinishes (trace ++ [e]) := by
  intro c files hMem
  rcases List.mem_append.mp hMem with hOld | hLast
  · exact h c files hOld
  · exact hNew c files (List.mem_singleton.mp hLast).symm

/- The trace of a move. -/
theorem LinkInvariant.whole_move
    {n m : Node}
    (h : LinkInvariant n)
    (hMove : Move env call n m) :
    WholeFinishes m.trace := by
  cases hMove with
  | get hGet =>
      cases hGet with
      | entered hAll =>
          apply h.whole.append
          rintro c files hEq r hListed
          cases hEq
          exact h.paired.whole hAll hListed
      | files _ => exact h.whole
      | got =>
          apply h.whole.append
          intro c files hEq
          cases hEq
      | dropped _ => exact h.whole
  | fetched _ p q r chunk _ _ _ _ _ _ _ =>
      apply h.whole.append
      intro c files hEq
      cases hEq
  | _ => exact h.whole

/- No move of the receiver changes the fault. -/
theorem fault_move
    {n m : Node}
    (hMove : Move env call n m) :
    m.fault = n.fault := by
  cases hMove with
  | get hGet => cases hGet <;> rfl
  | _ => rfl

theorem fault_data
    {n m : Node}
    {src : Addr}
    {packet : Packet}
    {ack : Option Int}
    {counted : Bool}
    (hStep : DataStep env src packet n ack counted m) :
    m.fault = n.fault := by
  cases hStep <;>
    simp [Node.filled, Node.release, Node.keep, Node.heard,
      Node.recorded]

theorem linkInvariant_kept
    (call : Call)
    (hClock : PositiveClock env) :
    Kept env call (LinkInvariant) where
  paired := fun n h => h.paired
  move := fun n m h hMove =>
    { paired := h.paired.move hClock hMove
      whole := h.whole_move hMove
      fault := by
        rw [fault_move hMove]
        exact h.fault }
  push := fun n d h => ⟨h.paired, h.whole, h.fault⟩
  served := by
    rintro n m h ⟨upload, queue, reads, rfl⟩
    exact ⟨h.paired.frame
      (.ofFields rfl rfl rfl rfl rfl rfl rfl), h.whole,
      h.fault⟩
  halt := by
    intro n f hOther h
    refine ⟨h.paired, h.whole, ?_⟩
    intro g hg
    cases hg
    exact hOther

/- DATA emits no entry to `finish_get` of its own. -/
theorem LinkInvariant.data
    (hClock : PositiveClock env)
    {n m : Node}
    (h : LinkInvariant n)
    {src : Addr}
    {packet : Packet}
    {ack : Option Int}
    {counted : Bool}
    (hStep : DataStep env src packet n ack counted m) :
    LinkInvariant m := by
  have hFilled :
      ∀ r packets, WholeFinishes
        (n.trace ++ [.finishChunk r packets]) := by
    intro r packets
    apply h.whole.append
    intro c files hEq
    cases hEq
  refine ⟨h.paired.data hClock hStep, ?_, ?_⟩
  · cases hStep with
    | ignored _ => exact h.whole
    | refused p r _ _ => exact h.whole
    | stored p r chunk nodes _ _ => exact h.whole
    | stopped p q r chunk nodes g f _ _ => exact hFilled _ _
    | rejected p q r chunk nodes _ _ =>
        apply (hFilled _ _).append
        intro c files hEq
        cases hEq
    | unrecorded p q r chunk nodes _ _ _ =>
        apply (hFilled _ _).append
        intro c files hEq
        cases hEq
    | recorded p q r chunk nodes id _ _ _ _ =>
        exact hFilled _ _
  · rw [fault_data hStep]
    exact h.fault

theorem LinkInvariant.step
    (hClock : PositiveClock env)
    {n : Node}
    (h : LinkInvariant n)
    {e : NodeEvent}
    (hPromised : Promised n e) :
    LinkInvariant (n.step env e) := by
  apply (linkInvariant_kept _ hClock).step
  · rintro chunkfile outputfile rfl
    exact hPromised
  · rintro src packet rfl ack counted m hStep
    exact h.data hClock hStep
  · exact h

theorem LinkInvariant.run
    (hClock : PositiveClock env)
    {n m : Node}
    (h : LinkInvariant n)
    (hRun : Run env n m) :
    LinkInvariant m :=
  hRun.invariant h fun _ _ hI hAllow =>
    hI.step hClock hAllow

theorem Configured.linkInvariant
    {n : Node}
    (h : Configured n) :
    LinkInvariant n where
  paired := h.paired
  whole := by
    intro c files hMem
    simp [h.trace] at hMem
  fault := by simp [h.running]

/-
  In every state of a run, peers and chunks are linked at
  both ends, a response is waited for from busy peers and
  from no others, `finish_get` was entered on downloaded
  chunks only and no pointer of a link was followed to
  nothing.
-/
theorem links_of_run
    (hClock : PositiveClock env)
    {n₀ n : Node}
    (hStart : Configured n₀)
    (hRun : Run env n₀ n) :
    Linked n.config ∧ WholeFinishes n.trace ∧
      n.fault ≠ some .timeoutChunk ∧
      n.fault ≠ some .finishPeer ∧
      n.fault ≠ some .freedChunk := by
  have hInvariant :=
    hStart.linkInvariant.run hClock hRun
  have hNoFault :
      ∀ f : Fault, f.isPointer = true →
        n.fault ≠ some f := by
    intro f hPointer hFault
    have hOther := hInvariant.fault f hFault
    rw [hPointer] at hOther
    cases hOther
  exact ⟨hInvariant.paired.linked, hInvariant.whole,
    hNoFault _ rfl, hNoFault _ rfl, hNoFault _ rfl⟩

end PeerNet

------------------------------------------------------------
-- A Process with One Peer
------------------------------------------------------------

namespace PeerNet

open Runs

/- A clock that stands still, and a constant hash. -/
def stillEnv : Env where
  shahash := fun _ => Vector.replicate 20 0
  clock := fun _ => 1
  junk := fun _ => 0

/- A peer entry after `reset_peers`. -/
def idlePeer : BtPeer where
  id := 2
  downloading := false
  consecTimeouts := 0
  badTime := 0
  lastResponse := -1
  chunk := none
  addr := ⟨1, 1⟩

def onePeerConfig : BtConfig where
  chunkFile := [1]
  hasChunkFile := [2]
  outputFile := [3]
  getChunkFile := [4]
  maxConn := 1
  identity := 1
  peers := [0]
  curDownload := 0
  numChunks := 0
  numDownloaded := 0
  download := []
  upload := []
  lastWhohas := 0
  peer := fun _ => idlePeer
  chunk := fun _ => none
  nextChunk := 0

def onePeerNode : Node where
  config := onePeerConfig
  files := ⟨fun _ => none, fun _ => true⟩
  queue := []
  reads := 0
  trace := []
  fault := none

theorem onePeerNode_configured :
    Configured onePeerNode where
  running := rfl
  trace := rfl
  queue := rfl
  distinct := by
    intro p hp q hq _
    rw [List.mem_singleton.mp hp, List.mem_singleton.mp hq]
  download := rfl
  upload := rfl
  empty := fun _ => rfl
  idle := fun _ _ => rfl
  free := fun _ _ => rfl
  silent := fun _ _ => rfl
  curDownload := rfl

/- `0 ` and forty zeros: the file of one chunk. -/
def oneChunkText : Bytes :=
  48 :: 32 :: List.replicate 40 48 ++ [10]

/- `File: D`: the head of a master-chunk file. -/
def masterText : Bytes :=
  [70, 105, 108, 101, 58, 32, 68, 10]

/- The one peer, and a chunk file. -/
def oneChunkNode : Node :=
  { onePeerNode with
    files :=
      { content := fun path =>
          if path = [4] then some oneChunkText else none
        writable := fun _ => true } }

theorem oneChunkNode_configured :
    Configured oneChunkNode :=
  { onePeerNode_configured with }

/- The peer announces the chunk. -/
def oneChunkIhave : Packet where
  header := initPacketHead typeIhave 16 40 0 0
  buf := 1 :: List.replicate 23 0

theorem stillEnv_clock :
    PositiveClock stillEnv :=
  fun _ => Int.one_pos

/- One byte of the chunk comes, in a first packet. -/
def oneByteData : Packet where
  header := initPacketHead typeData 16 17 1 0
  buf := [0]

/- The chunk is asked of the one peer, and a packet comes. -/
def oneChunkStored : Node :=
  foldSteps (Node.step stillEnv) oneChunkNode
    [.userGet [4] [3], .ihave ⟨1, 1⟩ oneChunkIhave,
      .getAllTheThingz, .data ⟨1, 1⟩ oneByteData]

theorem links_of_run_onePeer :
    (oneChunkStored.config.peer 0).chunk = some 0 ∧
      Linked oneChunkStored.config ∧
      WholeFinishes oneChunkStored.trace ∧
      oneChunkStored.fault ≠ some .timeoutChunk ∧
      oneChunkStored.fault ≠ some .finishPeer ∧
      oneChunkStored.fault ≠ some .freedChunk := by
  have hRun : Run stillEnv oneChunkNode oneChunkStored := by
    apply reaches_foldSteps
    refine ⟨rfl, ?_, trivial, ?_, trivial⟩
    · change (peerWithAddr ⟨1, 1⟩ (Node.config _)).isSome
      decide
    · change (peerWithAddr ⟨1, 1⟩ (Node.config _)).isSome
      decide
  refine ⟨by decide, ?_⟩
  exact links_of_run stillEnv_clock oneChunkNode_configured
    hRun

end PeerNet
