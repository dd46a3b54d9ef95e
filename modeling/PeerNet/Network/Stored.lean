import PeerNet.Lookup.Recording
import PeerNet.Network.Uploads
import PeerNet.Sender.Published

/-
  Which chunk the DATA belongs to that a process stores.

  `process_data` takes DATA from any peer that it gets a
  chunk from, and stores it in that chunk. DATA that was sent
  for the last GET to the peer is of this chunk. What was
  sent for an earlier one is of the chunk that this one asked
  for, and is stored all the same.

  Main declarations:
    * `SliceOf`
    * `stored_of_run`
    * `node_run_at`
    * `late_data_stored_elsewhere`
-/

------------------------------------------------------------
-- Slices of a Chunk
------------------------------------------------------------

namespace PeerNet

open Reassembly

/- The bytes are found in data that has the hash. -/
def SliceOf
    (env : Env)
    (hash : Hash)
    (payload : Bytes) : Prop :=
  ∃ filechunk,
    env.shahash filechunk = hash ∧ payload <:+: filechunk

end PeerNet

------------------------------------------------------------
-- Data That Is Stored
------------------------------------------------------------

namespace PeerNet

open Runs PeerNet.System

section

variable {env : Addr → Env} {σ₀ σ : System} {m : Message}
variable {p : PeerRef} {r : ChunkRef} {chunk : BtChunk}
variable {nodes : List BtPacket}

/-
  DATA that a process stores is of the chunk it stores it in,
  if it was sent for the last GET to its sender. If it was
  sent for an earlier one, it is of the chunk that this one
  asked for.
-/
theorem stored_of_run
    (hStart : Started σ₀)
    (hRun : Reaches (step env) NoForging σ₀ σ)
    (hNet : m ∈ σ.net)
    (hType : m.packet.header.type = typeData)
    (hTaking :
      Taking (σ.node m.dest).config m.src m.packet p r chunk
        nodes) :
    ∃ f, IsLast σ.requests m.dest m.src f ∧
      σ.requests[f]? = some ⟨m.dest, m.src, chunk.hash⟩ ∧
        ((m.tag = f ∧
            PartOf (env m.src) chunk.hash m.packet.slot
              m.packet.payload) ∨
          (m.tag < f ∧
            ∃ hash,
              σ.requests[m.tag]? =
                  some ⟨m.dest, m.src, hash⟩ ∧
                PartOf (env m.src) hash m.packet.slot
                  m.packet.payload)) := by
  have h := recorded_of_run hStart hRun
  rcases (h.tracing m.dest).current m.src p r chunk
      hTaking.toFetching hTaking.live with ⟨f, hCurrent⟩
  rcases ((h.traced m hNet).data hType).part with
    ⟨hash, hTag, hPart⟩
  refine ⟨f, hCurrent.last, hCurrent.asked, ?_⟩
  rcases Nat.lt_or_eq_of_le (hCurrent.last.last _ _ hTag) with
    hEarlier | hNow
  · exact .inr ⟨hEarlier, hash, hTag, hPart⟩
  · have hAsked := hCurrent.asked
    rw [← hNow, hTag] at hAsked
    cases hAsked
    exact .inl ⟨hNow, hPart⟩

end

/- The system when the DATA is on its way. -/
def dataSent : System :=
  foldSteps (step waitingEnv) sharingSystem
    (staleAckEvents.take 5)

theorem stored_of_run_zero :
    ∃ f, IsLast dataSent.requests ⟨2, 2⟩ ⟨1, 1⟩ f ∧
      dataSent.requests[f]? =
          some ⟨⟨2, 2⟩, ⟨1, 1⟩, Vector.replicate 20 0⟩ ∧
        ((0 = f ∧
            PartOf (waitingEnv ⟨1, 1⟩) (Vector.replicate 20 0)
              zeroData.packet.slot zeroData.packet.payload) ∨
          (0 < f ∧
            ∃ hash,
              dataSent.requests[0]? =
                  some ⟨⟨2, 2⟩, ⟨1, 1⟩, hash⟩ ∧
                PartOf (waitingEnv ⟨1, 1⟩) hash
                  zeroData.packet.slot
                  zeroData.packet.payload)) := by
  have hNet : zeroData ∈ dataSent.net := by decide
  have hLive :
      (dataSent.node ⟨2, 2⟩).config.chunk 0 =
        some ⟨0, Vector.replicate 20 0, 1, false, 0, some 0,
          [0], .live []⟩ := by
    decide
  have hTaking :
      Taking (dataSent.node ⟨2, 2⟩).config ⟨1, 1⟩
        zeroData.packet 0 0 _ [] :=
    ⟨⟨by decide, by decide⟩, by decide,
      by decide, hLive, rfl⟩
  exact stored_of_run sharingSystem_started
    (reaches_take 5 staleAckEvents_allowed) hNet rfl hTaking

end PeerNet

------------------------------------------------------------
-- Runs Seen from One Process
------------------------------------------------------------

namespace PeerNet

namespace System

open Runs

section

variable {env : Addr → Env} {σ τ : System} {a : Addr}

theorem net_subset_run
    (env : Addr → Env)
    (σ : System)
    (events : List SystemEvent) :
    σ.net ⊆ (foldSteps (step env) σ events).net := by
  induction events generalizing σ with
  | nil => exact List.Subset.refl _
  | cons e events ih =>
      exact List.Subset.trans (net_subset_step env σ e)
        (ih (step env σ e))

/- A process sees nothing of the others but the event. -/
theorem node_step_congr
    (e : SystemEvent)
    (hSame : σ.node a = τ.node a) :
    (step env σ e).node a = (step env τ e).node a := by
  by_cases ha : a = place e
  · subst ha
    cases hEvent : nodeEvent e with
    | none =>
        rw [step_of_none hEvent, step_of_none hEvent, hSame]
    | some ne =>
        rw [step_node env σ hEvent, step_node env τ hEvent,
          hSame]
  · rw [step_node_of_ne ha, step_node_of_ne ha, hSame]

theorem node_run_congr
    (events : List SystemEvent)
    (hSame : σ.node a = τ.node a) :
    (foldSteps (step env) σ events).node a =
      (foldSteps (step env) τ events).node a := by
  induction events generalizing σ τ with
  | nil => exact hSame
  | cons e events ih => exact ih (node_step_congr e hSame)

/- What is left of a run are the events at the process. -/
theorem node_run_at
    (env : Addr → Env)
    (σ : System)
    (a : Addr)
    (events : List SystemEvent) :
    (foldSteps (step env) σ events).node a =
      (foldSteps (step env) σ
        (events.filter fun e => place e = a)).node a := by
  induction events generalizing σ with
  | nil => rfl
  | cons e events ih =>
      by_cases ha : place e = a
      · rw [List.filter_cons_of_pos (by simpa using ha)]
        exact ih (step env σ e)
      · rw [List.filter_cons_of_neg (by simpa using ha)]
        exact (ih (step env σ e)).trans
          (node_run_congr _ (step_node_of_ne (Ne.symm ha)))

end

end System

end PeerNet

------------------------------------------------------------
-- Late DATA
------------------------------------------------------------

namespace PeerNet

open Prog Runs PeerNet.System

section

variable {env : Env} {n : Node} {src : Addr} {hash : Hash}
variable {peer : PeerRef} {filechunk : Bytes}
variable {readBytes : Nat}

/- A GET makes an upload of a chunk that is read. -/
theorem step_get_uploads
    (hRunning : n.fault = none)
    (hRead : readBytes ≤ filechunk.length)
    (hChunk :
      dataChunk env n.files n.config hash =
        .ok (some (filechunk, readBytes)))
    (hPeer : peerWithAddr src n.config = some peer)
    (hFresh : findSenderList n.config peer = none) :
    n.step env (.get src (getPacket hash)) =
      n.onConfig (BtConfig.addSenderList
        (newSender hash
          (some ((dataPackets filechunk readBytes).map some))
          (dataPackets filechunk readBytes).length peer)) := by
  have hLength : (getPacket hash).buf.length = 20 :=
    hash.length_toList
  apply Node.exec_discard_of_wp hRunning
  unfold processGet
  rw [wp_bind, wp_get]
  dsimp only
  rw [hPeer]
  dsimp only
  rw [hFresh, wp_ite, wp_ite, wp_ite]
  refine ⟨fun hFound => absurd hFound (by simp), fun _ => ?_⟩
  refine ⟨fun hHead => absurd rfl hHead, fun _ => ?_⟩
  refine ⟨fun hShort => by omega, fun _ => ?_⟩
  rw [hashOfBytes_getPacket]
  apply wp_mono
    (wp_eq_ok.mpr (sendData_uploads hRead hChunk hPeer))
  · exact fun _ _ h => h.2
  · exact fun _ _ h => h

end

/- A hash that only tells whether all bytes are zero. -/
def zeroHash
    (bytes : Bytes) : Hash :=
  if bytes.all (fun b => b == 0) then
    Vector.replicate 20 0
  else
    Vector.replicate 20 17

def lateEnv
    (x : Addr) : Env :=
  { waitingEnv x with shahash := zeroHash }

/- A chunk of zeros and a last one of one byte. -/
def twoChunks : Bytes :=
  zeroChunk ++ [1]

/- A process that has both chunks. -/
def keeperNode : Node :=
  { onePeerNode with
    config :=
      { onePeerConfig with
        peer := fun _ => { idlePeer with addr := ⟨2, 2⟩ } }
    files :=
      { content := fun path =>
          if path = [1] then some pairMaster.text
          else if path = [2] then
            some (listText true [zeroLine, onesLine])
          else if path = [68] then some twoChunks
          else none
        writable := fun _ => true } }

/- The last one is what it reads for the hash of ones. -/
theorem keeperNode_chunk :
    dataChunk (lateEnv ⟨1, 1⟩) keeperNode.files
        keeperNode.config (Vector.replicate 20 17) =
      .ok (some
        ((lateEnv ⟨1, 1⟩).fill btChunkSize [1], 1)) := by
  have hLength : zeroChunk.length = 1 * btChunkSize := by
    rw [Nat.one_mul]
    exact List.length_replicate
  have hIn : 1 * btChunkSize < twoChunks.length := by
    rw [twoChunks, List.length_append, hLength]
    exact Nat.lt_succ_self _
  have hLast :
      (twoChunks.drop (1 * btChunkSize)).take btChunkSize =
        [1] := by
    rw [twoChunks, List.drop_left' hLength]
    rfl
  have hMaster :
      keeperNode.files.content keeperNode.config.chunkFile =
        some pairMaster.text :=
    rfl
  have hOwned :
      keeperNode.files.content
          keeperNode.config.hasChunkFile =
        some (listText true [zeroLine, onesLine]) :=
    rfl
  have hShares :
      Shares (lateEnv ⟨1, 1⟩) keeperNode twoChunks
        (Vector.replicate 20 17) 1 := by
    constructor
    · unfold hasChunk
      rw [hOwned]
      decide
    · refine ⟨[68], ?_, rfl⟩
      unfold masterDataFile
      rw [hMaster]
      decide
  have hHash :
      (lateEnv ⟨1, 1⟩).shahash
          ((lateEnv ⟨1, 1⟩).fill btChunkSize [1]) =
        Vector.replicate 20 17 :=
    rfl
  rw [dataChunk_shared hShares, readChunk_published hIn,
    if_pos (by decide), hLast]
  simp [Except.map, hHash, hashEqual]

/- A process that knows two others, and a chunk list. -/
def askerNode : Node :=
  { onePeerNode with
    config :=
      { onePeerConfig with
        peers := [0, 1]
        peer := fun p =>
          if p = 0 then idlePeer
          else { idlePeer with id := 3, addr := ⟨3, 3⟩ } }
    files :=
      { content := fun path =>
          if path = [4] then
            some (listText true [onesLine, zeroLine])
          else none
        writable := fun _ => true } }

def keepingSystem : System where
  node := fun x => if x = ⟨2, 2⟩ then askerNode else keeperNode
  net := []
  requests := []
  fetchTag := fun _ _ => 0
  uploadTag := fun _ _ => 0
  countedTag := fun _ _ => 0
  accepted := []

theorem keepingSystem_started :
    Started keepingSystem where
  configured := by
    intro a
    by_cases ha : a = ⟨2, 2⟩
    · have hIs : keepingSystem.node a = askerNode := if_pos ha
      rw [hIs]
      refine
        { onePeerNode_configured with
          distinct := ?_
          idle := ?_
          free := ?_
          silent := ?_ }
      · have hDistinct :
            ∀ p ∈ [0, 1], ∀ q ∈ [0, 1],
              (askerNode.config.peer p).addr =
                  (askerNode.config.peer q).addr →
                p = q := by
          decide
        exact hDistinct
      · intro p _
        change (ite _ _ _ : BtPeer).downloading = false
        split <;> rfl
      · intro p _
        change (ite _ _ _ : BtPeer).chunk = none
        split <;> rfl
      · intro p _
        change (ite _ _ _ : BtPeer).lastResponse = -1
        split <;> rfl
    · have hIs : keepingSystem.node a = keeperNode := if_neg ha
      rw [hIs]
      refine
        { onePeerNode_configured with
          distinct := ?_
          idle := fun _ _ => rfl
          free := fun _ _ => rfl
          silent := fun _ _ => rfl }
      intro p hp q hq _
      rw [List.mem_singleton.mp hp, List.mem_singleton.mp hq]
  net := rfl
  requests := rfl
  accepted := rfl

/- An IHAVE of both chunks. -/
def bothIhave : Packet where
  header := initPacketHead typeIhave 16 60 0 0
  buf :=
    2 :: 0 :: 0 :: 0 ::
      (List.replicate 20 0 ++ List.replicate 20 17)

def onesRequest : Message :=
  ⟨⟨2, 2⟩, ⟨1, 1⟩, getPacket (Vector.replicate 20 17), 0⟩

/- The last chunk is asked for. -/
def askedEvents : List SystemEvent :=
  [.userGet ⟨2, 2⟩ [4] [3], .ihave ⟨2, 2⟩ ⟨1, 1⟩ bothIhave,
    .getAllTheThingz ⟨2, 2⟩]

/- It is sent, and its only DATA is late. -/
def sentEvents : List SystemEvent :=
  [.deliver onesRequest, .peerCc ⟨1, 1⟩]

/-
  The process that asked gives up. It gets this chunk from
  another one, and the chunk of zeros from the first.
-/
def givenUpEvents : List SystemEvent :=
  [.timeoutCheck ⟨2, 2⟩, .timeoutCheck ⟨2, 2⟩,
    .timeoutCheck ⟨2, 2⟩, .timeoutCheck ⟨2, 2⟩,
    .timeoutCheck ⟨2, 2⟩, .ihave ⟨2, 2⟩ ⟨3, 3⟩ bothIhave,
    .getAllTheThingz ⟨2, 2⟩]

def lateGivenUp : System :=
  foldSteps (step lateEnv) keepingSystem
    (askedEvents ++ sentEvents ++ givenUpEvents)

theorem reaches_lateGivenUp :
    Reaches (step lateEnv) NoForging keepingSystem
      lateGivenUp :=
  reaches_foldSteps (by decide)

/- What a GET for the last chunk makes of its keeper. -/
def lastServing : Node :=
  keeperNode.onConfig (BtConfig.addSenderList
    (newSender (Vector.replicate 20 17)
      (some ((dataPackets
        ((lateEnv ⟨1, 1⟩).fill btChunkSize [1]) 1).map some))
      (dataPackets
        ((lateEnv ⟨1, 1⟩).fill btChunkSize [1]) 1).length 0))

theorem keeperNode_get :
    keeperNode.step (lateEnv ⟨1, 1⟩)
        (.get ⟨2, 2⟩ (getPacket (Vector.replicate 20 17))) =
      lastServing := by
  have hRead :
      1 ≤ ((lateEnv ⟨1, 1⟩).fill btChunkSize [1]).length := by
    rw [Env.length_fill (lateEnv ⟨1, 1⟩) (by decide)]
    decide
  exact step_get_uploads rfl hRead keeperNode_chunk rfl rfl

/- The DATA of the last chunk is on the network. -/
theorem late_data_sent :
    ∃ m ∈ lateGivenUp.net,
      m.src = ⟨1, 1⟩ ∧ m.dest = ⟨2, 2⟩ ∧
        m.packet = dataPacket 1 [1] := by
  have hKeeper :
      (foldSteps (step lateEnv) keepingSystem
          askedEvents).node ⟨1, 1⟩ =
        keeperNode := by
    rw [node_run_at]
    rfl
  have hQueued :
      ⟨dataPacket 1 [1], ⟨2, 2⟩⟩ ∈
        (lastServing.step (lateEnv ⟨1, 1⟩) .peerCc).queue := by
    decide
  have hPass (σ : System)
      (hServing : σ.node ⟨1, 1⟩ = lastServing) :
      ∃ m ∈ (step lateEnv σ (.peerCc ⟨1, 1⟩)).net,
        m.src = ⟨1, 1⟩ ∧ m.dest = ⟨2, 2⟩ ∧
          m.packet = dataPacket 1 [1] := by
    rw [← hServing] at hQueued
    exact step_carries (e := .peerCc ⟨1, 1⟩) rfl hQueued
  have hServing (σ : System)
      (hIs : σ.node ⟨1, 1⟩ = keeperNode) :
      (step lateEnv σ (.deliver onesRequest)).node ⟨1, 1⟩ =
        lastServing := by
    have hNode :
        (step lateEnv σ (.deliver onesRequest)).node ⟨1, 1⟩ =
          { (σ.node ⟨1, 1⟩).step (lateEnv ⟨1, 1⟩)
              (.get ⟨2, 2⟩
                (getPacket (Vector.replicate 20 17))) with
            queue := [] } :=
      step_node lateEnv σ (nodeEvent_get rfl)
    rw [hIs, keeperNode_get] at hNode
    exact hNode
  rcases hPass _ (hServing _ hKeeper) with ⟨m, hSent, hIs⟩
  refine ⟨m, ?_, hIs⟩
  rw [lateGivenUp, foldSteps_append, foldSteps_append]
  apply net_subset_run
  have hBoth (σ : System) :
      foldSteps (step lateEnv) σ sentEvents =
        step lateEnv
          (step lateEnv σ (.deliver onesRequest))
          (.peerCc ⟨1, 1⟩) :=
    rfl
  rw [hBoth]
  exact hSent

/- Meanwhile the chunk of zeros is fetched from there. -/
theorem late_data_taken :
    ∃ chunk, chunk.hash = Vector.replicate 20 0 ∧
      Taking (lateGivenUp.node ⟨2, 2⟩).config ⟨1, 1⟩
        (dataPacket 1 [1]) 0 1 chunk [] := by
  have hEvents :
      (askedEvents ++ sentEvents ++ givenUpEvents).filter
          (fun e => place e = ⟨2, 2⟩) =
        askedEvents ++ givenUpEvents :=
    rfl
  have hAsker :
      lateGivenUp.node ⟨2, 2⟩ =
        (foldSteps (step lateEnv) keepingSystem
          (askedEvents ++ givenUpEvents)).node ⟨2, 2⟩ := by
    rw [lateGivenUp, node_run_at, hEvents]
  have hLive :
      (lateGivenUp.node ⟨2, 2⟩).config.chunk 1 =
        some ⟨0, Vector.replicate 20 0, 1, false, 0, some 0,
          [1, 0], .live []⟩ := by
    rw [hAsker]
    decide +kernel
  have hFound :
      peerWithAddr ⟨1, 1⟩
          (lateGivenUp.node ⟨2, 2⟩).config =
        some 0 := by
    rw [hAsker]
    decide +kernel
  have hAssigned :
      ((lateGivenUp.node ⟨2, 2⟩).config.peer 0).chunk =
        some 1 := by
    rw [hAsker]
    decide +kernel
  exact
    ⟨_, rfl, ⟨hFound, hAssigned⟩, by decide, by decide, hLive,
      rfl⟩

/- No data that has the hash of zeros has the byte 1. -/
theorem not_sliceOf_zeros
    (x : Addr) :
    ¬ SliceOf (lateEnv x) (Vector.replicate 20 0) [1] := by
  rintro ⟨filechunk, hHash, hInfix⟩
  have hMem : 1 ∈ filechunk :=
    hInfix.subset List.mem_cons_self
  change zeroHash filechunk = _ at hHash
  unfold zeroHash at hHash
  split at hHash
  · next hZero =>
      have hOne := List.all_eq_true.mp hZero 1 hMem
      exact absurd hOne (by decide)
  · exact absurd hHash (by decide)

/-
  DATA of a chunk that was given up comes late, and is stored
  in the chunk that is now fetched from the same peer.
-/
theorem late_data_stored_elsewhere :
    ¬ ∀ (env : Addr → Env) (σ₀ σ : System) (m : Message)
        (p : PeerRef) (r : ChunkRef) (chunk : BtChunk)
        (nodes : List BtPacket),
      Started σ₀ → Reaches (step env) NoForging σ₀ σ →
        m ∈ σ.net → m.packet.header.type = typeData →
          Taking (σ.node m.dest).config m.src m.packet p r
              chunk nodes →
            SliceOf (env m.src) chunk.hash
              m.packet.payload := by
  intro hClaim
  rcases late_data_sent with ⟨m, hSent, hSrc, hDest, hPacket⟩
  rcases late_data_taken with ⟨chunk, hHash, hTaking⟩
  rw [← hSrc, ← hDest, ← hPacket] at hTaking
  have hType : m.packet.header.type = typeData := by
    rw [hPacket]
    rfl
  have hSlice :=
    hClaim lateEnv keepingSystem lateGivenUp m 0 1 chunk []
      keepingSystem_started reaches_lateGivenUp hSent hType
      hTaking
  have hPayload : m.packet.payload = [1] := by
    rw [hPacket]
    rfl
  rw [hHash, hPayload] at hSlice
  exact not_sliceOf_zeros m.src hSlice

end PeerNet
