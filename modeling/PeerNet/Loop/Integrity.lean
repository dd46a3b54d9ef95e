import PeerNet.Loop.Refinement
import PeerNet.Publish.Retrieved

/-
  What a process takes for downloaded is what was published.

  A chunk that is marked as downloaded has no peer, so no
  packet can come for it, and its packets are those that
  `finish_chunk` has verified. This holds in every state,
  also where user GETs come in the middle of a download. With
  the hash function of `sha.c` the verified bytes are the
  published ones, or they collide with them.

  Main declarations:
    * `Settled`
    * `settled_of_run`
    * `cluster_downloads_intact`
-/

------------------------------------------------------------
-- Settled Chunks
------------------------------------------------------------

namespace PeerNet

/- A downloaded chunk has no peer, and verified packets. -/
def BtChunk.Settled
    (env : Env)
    (chunk : BtChunk) : Prop :=
  chunk.downloaded = true →
    chunk.peer = none ∧ chunk.Received env

abbrev Settled
    (env : Env)
    (c : BtConfig) : Prop :=
  Everywhere (BtChunk.Settled env) c

section

variable {env e : Env} {call : Call} {n m : Node}
variable {src : Addr} {packet : Packet} {p q : PeerRef}
variable {r : ChunkRef} {chunk : BtChunk}
variable {nodes : List BtPacket}

theorem Settled.move
    (h : Settled env n.config)
    (hMove : Move e call n m) :
    Settled env m.config := by
  cases hMove with
  | get hGet =>
      cases hGet with
      | dropped _ => exact Everywhere.dropDownload h
      | _ => exact h
  | gaveUp _ cur r chunk packets now _ _ _ _ =>
      apply Everywhere.setChunk h r
      intro chunk' _ hDone
      cases hDone
  | fetched _ p q r chunk _ hLive hNeeded _ _ _ _ =>
      apply Everywhere.setChunk h r
      intro chunk' hLive' hDone
      rw [Option.some.inj (hLive'.symm.trans hLive)] at hDone
      have hStill : chunk.downloaded = true := hDone
      rw [hNeeded] at hStill
      cases hStill
  | announced _ r p _ _ =>
      apply Everywhere.setChunk h r
      exact fun chunk hLive => h r chunk hLive
  | loaded _ chunkfile outputfile items _ _ =>
      apply Everywhere.load h
      exact fun _ hAdded _ =>
        ⟨hAdded.peer, .inl hAdded.packets⟩
  | _ => exact h

theorem settled_closed :
    Closed e call (fun n => Settled env n.config) where
  move _ _ h hMove := h.move hMove
  load _ chunkfile outputfile items _ _ h := by
    apply Everywhere.load h
    exact fun _ hAdded _ =>
      ⟨hAdded.peer, .inl hAdded.packets⟩
  raise _ h := h
  halt _ _ h := h

/- DATA is stored in chunks that are still needed. -/
theorem Settled.needed
    (h : Settled env n.config)
    (hOwned : Owned n.config)
    (hTaking :
      Taking n.config src packet p r chunk nodes) :
    chunk.downloaded = false := by
  cases hDone : chunk.downloaded with
  | false => rfl
  | true =>
      have hFree := (h r chunk hTaking.live hDone).1
      rw [hOwned.taking hTaking] at hFree
      cases hFree

theorem Settled.data
    (h : Settled env n.config)
    (hOwned : Owned n.config)
    {ack : Option Int}
    {counted : Bool}
    (hStep : DataStep env src packet n ack counted m) :
    Settled env m.config := by
  have hFilled :
      ∀ {p q r chunk nodes},
        Filling n.config src packet p q r chunk nodes →
          Settled env
            (n.filled env packet p q r chunk
              nodes).config := by
    intro p q r chunk nodes hFilling
    apply Everywhere.filled h
    intro hDone
    have hNeeded := h.needed hOwned hFilling.toTaking
    rw [← BtChunk.take_downloaded chunk nodes packet]
      at hNeeded
    exact absurd (hNeeded.symm.trans hDone) (by decide)
  cases hStep with
  | ignored _ => exact h
  | refused p r _ _ => exact h
  | stored p r chunk nodes hTaking _ =>
      apply Everywhere.stored h
      intro hDone
      rw [BtChunk.take_downloaded, h.needed hOwned hTaking]
        at hDone
      cases hDone
  | stopped p q r chunk nodes g f hFilling _ =>
      exact hFilled hFilling
  | rejected p q r chunk nodes hFilling _ =>
      exact hFilled hFilling
  | unrecorded p q r chunk nodes hFilling _ _ =>
      exact hFilled hFilling
  | recorded p q r chunk nodes id hFilling hVerified _ _ =>
      apply Everywhere.setChunk (hFilled hFilling) r
      intro chunk' hLive _
      rw [filled_chunk hFilling.live] at hLive
      cases hLive
      refine ⟨rfl, .inr ⟨storedNodes nodes packet, ?_, ?_⟩⟩
      · exact BtChunk.take_packets hFilling.packets packet
      · change Verified env (chunk.take nodes packet).hash _
        rw [BtChunk.take_hash]
        exact hVerified

/- Whatever happens, downloaded chunks stay settled. -/
theorem settled_step
    (h : Settled env n.config)
    (hOwned : Owned n.config)
    (e : NodeEvent) :
    Settled env (n.step env e).config := by
  by_cases hReceives : e.receives
  · apply Closed.step (I := fun n => Settled env n.config)
      settled_closed hReceives
    · rintro src packet rfl
      cases hRun : n.fault with
      | some f =>
          rw [step_of_fault _ _ hRun]
          exact h
      | none =>
      rcases hOwned.step_data env src packet hRun with
        hData | ⟨p, r, f, _, _, hEnd⟩
      · have hClosed :
            Closed env .ihave
              (fun n => Settled env n.config) :=
          settled_closed
        exact hClosed.dataRun (fun _ _ h => h)
          (fun _ _ _ hStep => h.data hOwned hStep) hData
      · rw [hEnd]
        exact h
    · exact h
  · rcases step_serves env n hReceives with
      ⟨m, ⟨_, _, _, rfl⟩, hEnd | ⟨f, hEnd⟩⟩
    · rw [hEnd]
      exact h
    · rw [hEnd]
      exact h

end

end PeerNet

------------------------------------------------------------
-- Runs
------------------------------------------------------------

namespace PeerNet

open Runs PeerNet.System

section

variable {env : Addr → Env} {σ₀ σ : System}

/- In every run of the system. -/
theorem settled_of_run
    (hStart : Started σ₀)
    (hRun : Reaches (System.step env) NoForging σ₀ σ)
    (a : Addr) :
    Settled (env a) (σ.node a).config := by
  have hBoth :
      Recorded env σ ∧
        ∀ a, Settled (env a) (σ.node a).config := by
    apply hRun.invariant
      (I := fun τ => Recorded env τ ∧
        ∀ a, Settled (env a) (τ.node a).config)
    · refine ⟨hStart.recorded, fun a r chunk hLive => ?_⟩
      rw [(hStart.configured a).empty r] at hLive
      cases hLive
    · rintro τ e ⟨hRecorded, hSettled⟩ hAllow
      refine ⟨hRecorded.step hAllow, fun b => ?_⟩
      cases hEvent : nodeEvent e with
      | none =>
          rw [step_of_none hEvent]
          exact hSettled b
      | some ne =>
      by_cases hb : b = place e
      · rw [hb, step_node env τ hEvent]
        exact settled_step (hSettled _)
          (hRecorded.tracing _).owned ne
      · rw [step_node_of_ne hb]
        exact hSettled b
  exact hBoth.2 a

end

/-
  The packets of every downloaded chunk make the data that
  was published under its hash, or data that collides with
  it on the way to the hash.
-/
def DownloadsIntact
    (sha : SHA1Context)
    (env : Env)
    (c : BtConfig) : Prop :=
  ∀ r chunk nodes published,
    c.chunk r = some chunk →
      chunk.downloaded = true →
        chunk.packets = .live nodes → nodes ≠ [] →
          published.length ≤ btChunkSize →
            shahash sha published published.length =
                some chunk.hash →
              ∃ buffer, writeToBuffer env nodes = .ok buffer ∧
                (buffer = published ∨
                  GutsCollide buffer published)

theorem Settled.intact
    {sha : SHA1Context}
    {env : Env}
    {c : BtConfig}
    (h : Settled (env.hashing sha) c) :
    DownloadsIntact sha env c := by
  intro r chunk nodes published hLive hDone hNodes hSome
    hSize hHash
  rcases (h r chunk hLive hDone).2 with
    hNone | ⟨nodes', hNodes', buffer, hBuffer, hSame⟩
  · rw [hNone] at hNodes
    cases hNodes
    exact absurd rfl hSome
  rw [hNodes] at hNodes'
  cases hNodes'
  have hMade : writeToBuffer env nodes = .ok buffer := hBuffer
  exact ⟨buffer, hMade,
    eq_or_collide_of_hash (length_of_writeToBuffer hMade).le
      hSize hSame hHash⟩

/-
  In every run of peers around the router, whatever is lost,
  repeated or late and whenever users type, what a process
  has downloaded for a hash is what was published under it,
  unless the two collide on the way to the hash.
-/
theorem cluster_downloads_intact
    (sha : SHA1Context)
    (env : Addr → Env)
    {node : Addr → Node}
    {router : Addr}
    {κ : Cluster}
    (hConfigured : ∀ a, Configured (node a))
    (hRun :
      Reaches (Cluster.step fun a => (env a).hashing sha)
        Cluster.Routed (.start node router) κ)
    (a : Addr) :
    DownloadsIntact sha (env a) (κ.proc a).node.config := by
  rcases refines_of_run hConfigured hRun with
    ⟨σ, hAbstract, hRefines⟩
  have hSettled :=
    settled_of_run (started_start hConfigured) hAbstract a
  apply Settled.intact
  rcases (hRefines.mirrors a).node with hSame | ⟨f, hHalted⟩
  · rw [hSame]
    exact hSettled
  · rw [hHalted]
    exact hSettled

/- Processes that hash with `sha.c`. -/
def hashingEnv
    (a : Addr) : Env :=
  (waitingEnv a).hashing zeroContext

theorem talks_hashingEnv :
    (typedCluster hashingEnv askingTurns).isSome = true := by
  decide +kernel

/- A chunk is announced, and asked for. -/
theorem cluster_downloads_intact_asking :
    DownloadsIntact zeroContext (waitingEnv ⟨2, 2⟩)
      (((typedCluster hashingEnv askingTurns).get
        talks_hashingEnv).proc ⟨2, 2⟩).node.config := by
  have hRun :=
    reaches_typedCluster talks_hashingEnv
  exact cluster_downloads_intact zeroContext waitingEnv
    sharingSystem_started.configured hRun ⟨2, 2⟩

end PeerNet
