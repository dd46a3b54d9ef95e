import PeerNet.Packets.Fetch
import PeerNet.Receiver.Ownership

/-
  Attempts on a chunk.

  `send_get` empties a chunk's packet list, but leaves
  `total_data`. It starts from scratch all the same, as long
  as whoever let go of the chunk before cleared the counter.
  `timeout_check` does; `finish_chunk` does not, so a chunk
  that fails its hash check, or whose record cannot be
  written, spoils the next attempt.

  Main declarations:
    * `Unspoiled`
    * `Attempts`
    * `Restarts.step`
-/

------------------------------------------------------------
-- Chunks Everywhere
------------------------------------------------------------

namespace PeerNet

/- Every chunk of the download list meets `P`. -/
def Everywhere
    (P : BtChunk → Prop)
    (c : BtConfig) : Prop :=
  ∀ r chunk, c.chunk r = some chunk → P chunk

/- A chunk that a user GET has just added. -/
structure BtChunk.Added
    (chunk : BtChunk) : Prop where
  peer : chunk.peer = none
  packets : chunk.packets = .live []
  nextExpected : chunk.nextExpected = initSeqnum
  totalData : chunk.downloaded = false → chunk.totalData = 0

section

variable {P : BtChunk → Prop} {c : BtConfig}

theorem Everywhere.setChunk
    (h : Everywhere P c)
    (r : ChunkRef)
    (f : BtChunk → BtChunk)
    (hNew :
      ∀ chunk, c.chunk r = some chunk → P (f chunk)) :
    Everywhere P (c.setChunk r f) := by
  intro s chunk hLive
  by_cases hIs : s = r
  · subst hIs
    simp only [BtConfig.setChunk_chunk,
      Function.update_self, Option.map_eq_some_iff] at hLive
    rcases hLive with ⟨chunk', hLive', rfl⟩
    exact hNew chunk' hLive'
  · have hOld : c.chunk s = some chunk := by
      simpa [hIs] using hLive
    exact h s chunk hOld

theorem Everywhere.dropDownload
    (h : Everywhere P c) :
    Everywhere P c.dropDownload := by
  intro r chunk hLive
  rw [BtConfig.dropDownload_chunk] at hLive
  split at hLive
  · cases hLive
  · exact h r chunk hLive

/- A user GET adds chunks that nobody fetches. -/
theorem Everywhere.load
    (h : Everywhere P c)
    (hNew : ∀ chunk : BtChunk, chunk.Added → P chunk)
    (chunkfile outputfile : Path)
    (items : List Item) :
    Everywhere P (c.load chunkfile outputfile items) := by
  have hItems :
      ∀ (items : List Item) (c : BtConfig),
        Everywhere P c →
          Everywhere P (items.foldl BtConfig.addItem c) := by
    intro items
    induction items with
    | nil => exact fun _ h => h
    | cons item items ih =>
        intro c h
        apply ih
        intro r chunk hLive
        by_cases hIs : r = c.nextChunk
        · subst hIs
          simp only [BtConfig.addItem,
            BtConfig.addReceiver_chunk,
            Function.update_self, Option.some.injEq]
            at hLive
          subst hLive
          refine hNew _ ⟨rfl, rfl, rfl, ?_⟩
          intro hNot
          simp_all
        · have hOld : c.chunk r = some chunk := by
            simpa [BtConfig.addItem, hIs] using hLive
          exact h r chunk hOld
  exact hItems items _ h

end

end PeerNet

------------------------------------------------------------
-- Attempts
------------------------------------------------------------

namespace PeerNet

open Reassembly

/- A chunk that is fetched holds what came of the attempt. -/
def BtChunk.Attempted
    (chunk : BtChunk) : Prop :=
  ∀ p, chunk.peer = some p → ∃ slots, Holds chunk p slots

/- A chunk that is needed and not fetched counts nothing. -/
def BtChunk.Clean
    (chunk : BtChunk) : Prop :=
  chunk.peer = none → chunk.downloaded = false →
    chunk.totalData = 0

/- The fields an attempt has to start with. -/
structure BtChunk.Fresh
    (chunk : BtChunk) : Prop where
  packets : chunk.packets = .live []
  nextExpected : chunk.nextExpected = initSeqnum
  totalData : chunk.totalData = 0

/- Every attempt so far has started from scratch. -/
def FreshStarts
    (trace : List Event) : Prop :=
  ∀ r chunk, .sendGet r chunk ∈ trace → chunk.Fresh

/- The attempts of a process, the current ones included. -/
structure Attempts
    (n : Node) : Prop where
  owned : Owned n.config
  attempted : Everywhere BtChunk.Attempted n.config
  fresh : FreshStarts n.trace

/- The attempts, and none will start with data left over. -/
structure Restarts
    (n : Node) : Prop
    extends Attempts n where
  clean : Everywhere BtChunk.Clean n.config

section

variable {env : Env} {call : Call} {n m : Node}
variable {src : Addr} {packet : Packet} {p q : PeerRef}
variable {r : ChunkRef} {chunk : BtChunk}
variable {nodes : List BtPacket}

theorem FreshStarts.append
    {trace : List Event}
    (h : FreshStarts trace)
    {e : Event}
    (hNew : ∀ r chunk, e = .sendGet r chunk → chunk.Fresh) :
    FreshStarts (trace ++ [e]) := by
  intro r chunk hMem
  rcases List.mem_append.mp hMem with hOld | hLast
  · exact h r chunk hOld
  · exact hNew r chunk (List.mem_singleton.mp hLast).symm

theorem FreshStarts.move
    (h : Restarts n)
    (hMove : Move env call n m) :
    FreshStarts m.trace := by
  cases hMove with
  | get hGet =>
      cases hGet with
      | entered _ =>
          apply h.fresh.append
          intro r chunk hIs
          cases hIs
      | files g => exact h.fresh
      | got =>
          apply h.fresh.append
          intro r chunk hIs
          cases hIs
      | dropped _ => exact h.fresh
  | fetched _ p q r chunk _ hLive hNeeded hFree _ _ _ =>
      apply h.fresh.append
      intro s chunk' hIs
      cases hIs
      exact ⟨rfl, rfl, h.clean r chunk hLive hFree hNeeded⟩
  | _ => exact h.fresh

/- A fetch starts with an empty buffer. -/
theorem BtChunk.Clean.fetched
    (h : chunk.Clean)
    (hNeeded : chunk.downloaded = false)
    (hFree : chunk.peer = none)
    (p : PeerRef) :
    Holds (chunk.fetched p) p [] where
  peer := rfl
  packets := rfl
  totalData := h hFree hNeeded
  nextExpected := rfl

theorem Everywhere.attempted_move
    (h : Restarts n)
    (hMove : Move env call n m) :
    Everywhere BtChunk.Attempted m.config := by
  have hOld := h.attempted
  cases hMove with
  | get hGet =>
      cases hGet with
      | dropped _ => exact hOld.dropDownload
      | _ => exact hOld
  | gaveUp _ cur r chunk packets now _ _ _ _ =>
      apply hOld.setChunk r
      intro chunk' _ p hPeer
      cases hPeer
  | fetched _ p q r chunk _ hLive hNeeded hFree _ _ _ =>
      apply hOld.setChunk r
      intro chunk' hLive' s hPeer
      have hSame : chunk = chunk' :=
        Option.some.inj (hLive.symm.trans hLive')
      subst hSame
      cases hPeer
      exact ⟨[], (h.clean r chunk hLive).fetched hNeeded
        hFree p⟩
  | announced _ r p _ _ =>
      apply hOld.setChunk r
      intro chunk hLive q hPeer
      rcases hOld r chunk hLive q hPeer with ⟨slots, hHolds⟩
      exact ⟨slots, hHolds.peer, hHolds.packets,
        hHolds.totalData, hHolds.nextExpected⟩
  | loaded _ chunkfile outputfile items _ _ =>
      apply hOld.load
      intro chunk hAdded p hPeer
      simp [hAdded.peer] at hPeer
  | _ => exact hOld

theorem Everywhere.clean_move
    (h : Restarts n)
    (hMove : Move env call n m) :
    Everywhere BtChunk.Clean m.config := by
  have hOld := h.clean
  cases hMove with
  | get hGet =>
      cases hGet with
      | dropped _ => exact hOld.dropDownload
      | _ => exact hOld
  | gaveUp _ cur r chunk packets now _ _ _ _ =>
      apply hOld.setChunk r
      exact fun _ _ _ _ => rfl
  | fetched _ p q r chunk _ _ _ _ _ _ _ =>
      apply hOld.setChunk r
      intro chunk' _ hFree
      cases hFree
  | announced _ r p _ _ =>
      apply hOld.setChunk r
      exact fun chunk hLive => hOld r chunk hLive
  | loaded _ chunkfile outputfile items _ _ =>
      apply hOld.load
      exact fun chunk hAdded _ => hAdded.totalData
  | _ => exact hOld

/- The receiving side's calls, DATA apart, restart cleanly. -/
theorem restarts_closed :
    Closed env call Restarts where
  move := fun _ _ h hMove =>
    ⟨⟨h.owned.move hMove, Everywhere.attempted_move h hMove,
      FreshStarts.move h hMove⟩,
      Everywhere.clean_move h hMove⟩
  load := by
    intro n chunkfile outputfile items _ _ h
    refine ⟨⟨.load chunkfile outputfile items _, ?_,
      h.fresh⟩, ?_⟩
    · apply h.attempted.load
      intro chunk hAdded p hPeer
      simp [hAdded.peer] at hPeer
    · apply h.clean.load
      exact fun chunk hAdded _ => hAdded.totalData
  raise := fun _ h =>
    ⟨⟨h.owned, h.attempted, h.fresh⟩, h.clean⟩
  halt := fun _ _ h =>
    ⟨⟨h.owned, h.attempted, h.fresh⟩, h.clean⟩

end

end PeerNet

------------------------------------------------------------
-- DATA of an Attempt
------------------------------------------------------------

namespace PeerNet

open Reassembly

/-
  DATA that brings the bytes of a chunk, which then fails its
  hash check or cannot be recorded.
-/
def Spoils
    (env : Env)
    (n : Node)
    (src : Addr)
    (packet : Packet) : Prop :=
  ∃ p q r chunk nodes,
    Filling n.config src packet p q r chunk nodes ∧
      (Mismatched env chunk.hash
          (storedNodes nodes packet) ∨
        (Verified env chunk.hash
            (storedNodes nodes packet) ∧
          n.files.writable n.config.hasChunkFile = false))

/- The event spoils no chunk. -/
def Unspoiled
    (env : Env)
    (n : Node)
    (e : NodeEvent) : Prop :=
  ∀ src packet, e = .data src packet →
    ¬ Spoils env n src packet

section

variable {env : Env} {n m : Node}
variable {src : Addr} {packet : Packet} {p q : PeerRef}
variable {r : ChunkRef} {chunk : BtChunk}
variable {nodes : List BtPacket} {P : BtChunk → Prop}
variable {ack : Option Int} {counted : Bool}

theorem Everywhere.stored
    (h : Everywhere P n.config)
    (hNew : P (chunk.take nodes packet)) :
    Everywhere P
      ((n.heard env p).keep r
        (chunk.take nodes packet)).config := by
  have hHeard : Everywhere P (n.heard env p).config := h
  exact hHeard.setChunk r _ fun _ _ => hNew

theorem Everywhere.filled
    (h : Everywhere P n.config)
    (hNew :
      P { chunk.take nodes packet with peer := none }) :
    Everywhere P
      (n.filled env packet p q r chunk nodes).config := by
  intro s chunk' hLive
  by_cases hIs : s = r
  · subst hIs
    rcases hOld : n.config.chunk s with _ | old
    · simp [Node.filled, Node.release, Node.keep,
        Node.heard, BtConfig.heardData, hOld] at hLive
    · simp only [Node.filled, Node.release, Node.keep,
        Node.heard, BtConfig.heardData, Node.onConfig_config,
        Node.emit_config, BtConfig.release_chunk,
        BtConfig.setChunk_chunk, BtConfig.setPeer_chunk,
        Node.tick_config, Function.update_self, hOld,
        Option.map_some, Option.some.injEq] at hLive
      rw [← hLive]
      exact hNew
  · have hOld : n.config.chunk s = some chunk' := by
      simpa [Node.filled, Node.release, Node.keep,
        Node.heard, BtConfig.heardData, hIs] using hLive
    exact h s chunk' hOld

/- A packet is put into the buffer of the attempt. -/
theorem Attempts.take
    (h : Attempts n)
    (hTaking :
      Taking n.config src packet p r chunk nodes) :
    ∃ slots, nodes = nodesOf slots ∧
      Holds (chunk.take nodes packet) p
        (putPacket slots packet) := by
  have hPeer := h.owned.taking hTaking
  rcases h.attempted r chunk hTaking.live p hPeer with
    ⟨slots, hHolds⟩
  have hNodes : nodes = nodesOf slots := by
    have hSame :=
      hTaking.packets.symm.trans hHolds.packets
    exact BtPackets.live.inj hSame
  subst hNodes
  exact ⟨slots, rfl, hHolds.take hTaking.low⟩

/- DATA keeps what the attempts are. -/
theorem Attempts.data
    (h : Attempts n)
    (hStep : DataStep env src packet n ack counted m) :
    Attempts m := by
  have hTaken :
      ∀ {p r chunk nodes},
        Taking n.config src packet p r chunk nodes →
          (chunk.take nodes packet).Attempted := by
    intro p r chunk nodes hTaking q hPeer
    rcases h.take hTaking with ⟨slots, _, hHolds⟩
    have hSame : p = q :=
      Option.some.inj (hHolds.peer.symm.trans hPeer)
    exact ⟨_, hSame ▸ hHolds⟩
  have hFree :
      ∀ chunk : BtChunk,
        ({ chunk with peer := none } :
          BtChunk).Attempted := by
    intro chunk q hPeer
    cases hPeer
  have hFinish :
      ∀ r packets, FreshStarts
        (n.trace ++ [.finishChunk r packets]) := by
    intro r packets
    apply h.fresh.append
    intro s chunk hIs
    cases hIs
  refine ⟨h.owned.data hStep, ?_, ?_⟩
  · cases hStep with
    | ignored _ => exact h.attempted
    | refused p r _ _ => exact h.attempted
    | stored p r chunk nodes hTaking _ =>
        exact h.attempted.stored (hTaken hTaking)
    | stopped p q r chunk nodes g f hFilling _ =>
        exact h.attempted.filled (hFree _)
    | rejected p q r chunk nodes hFilling _ =>
        exact h.attempted.filled (hFree _)
    | unrecorded p q r chunk nodes hFilling _ _ =>
        exact h.attempted.filled (hFree _)
    | recorded p q r chunk nodes id hFilling _ _ _ =>
        have hFilled :
            Everywhere BtChunk.Attempted
              (n.filled env packet p q r chunk
                nodes).config :=
          h.attempted.filled (hFree _)
        apply hFilled.setChunk r
        intro chunk' hLive q hPeer
        rcases hFilled r chunk' hLive q hPeer with
          ⟨slots, hHolds⟩
        exact ⟨slots, hHolds.peer, hHolds.packets,
          hHolds.totalData, hHolds.nextExpected⟩
  · cases hStep with
    | ignored _ => exact h.fresh
    | refused p r _ _ => exact h.fresh
    | stored p r chunk nodes _ _ => exact h.fresh
    | stopped p q r chunk nodes g f _ _ => exact hFinish _ _
    | rejected p q r chunk nodes _ _ =>
        apply (hFinish _ _).append
        intro s chunk' hIs
        cases hIs
    | unrecorded p q r chunk nodes _ _ _ =>
        apply (hFinish _ _).append
        intro s chunk' hIs
        cases hIs
    | recorded p q r chunk nodes id _ _ _ _ =>
        exact hFinish _ _

/- DATA that spoils nothing leaves no data in free chunks. -/
theorem Restarts.data
    (h : Restarts n)
    (hStep : DataStep env src packet n ack counted m)
    (hUnspoiled : ¬ Spoils env n src packet)
    (hAnswered : ack = none → m.trace = n.trace) :
    Restarts m := by
  refine ⟨h.toAttempts.data hStep, ?_⟩
  cases hStep with
  | ignored _ => exact h.clean
  | refused p r _ _ => exact h.clean
  | stored p r chunk nodes hTaking _ =>
      apply h.clean.stored
      intro hFree
      rw [BtChunk.take_peer, h.owned.taking hTaking] at hFree
      cases hFree
  | stopped p q r chunk nodes g f hFilling _ =>
      have hSame := hAnswered rfl
      simp [Node.onFiles, filled_trace] at hSame
  | rejected p q r chunk nodes hFilling hHash =>
      exact absurd
        ⟨p, q, r, chunk, nodes, hFilling, .inl hHash⟩
        hUnspoiled
  | unrecorded p q r chunk nodes hFilling hHash hClosed =>
      exact absurd
        ⟨p, q, r, chunk, nodes, hFilling,
          .inr ⟨hHash, hClosed⟩⟩
        hUnspoiled
  | recorded p q r chunk nodes id hFilling _ _ _ =>
      intro s chunk' hLive
      by_cases hIs : s = r
      · subst hIs
        intro _ hNeeded
        simp only [Node.recorded, Node.onConfig_config,
          BtConfig.markDownloaded_chunk,
          BtConfig.setChunk_chunk, Function.update_self,
          Option.map_eq_some_iff] at hLive
        rcases hLive with ⟨_, _, rfl⟩
        cases hNeeded
      · have hOld : n.config.chunk s = some chunk' := by
          simpa [Node.recorded, Node.filled, Node.release,
            Node.keep, Node.heard, BtConfig.heardData, hIs]
            using hLive
        exact h.clean s chunk' hOld

/- Without an answer no chunk is counted. -/
theorem DataStep.uncounted
    (hStep : DataStep env src packet n none counted m) :
    counted = false := by
  cases hStep <;> rfl

theorem Attempts.halt
    (h : Attempts n)
    (f : Fault) :
    Attempts (n.halt f) :=
  ⟨h.owned, h.attempted, h.fresh⟩

/- The sending side's events leave chunks and GETs alone. -/
theorem Restarts.served
    (h : Restarts n)
    (env : Env)
    {e : NodeEvent}
    (hServes : ¬ e.receives) :
    Restarts (n.step env e) := by
  rcases step_serves env n hServes with
    ⟨m, ⟨_, _, _, rfl⟩, hEnd | ⟨f, hEnd⟩⟩
  · rw [hEnd]
    exact ⟨⟨h.owned, h.attempted, h.fresh⟩, h.clean⟩
  · rw [hEnd]
    exact ⟨⟨h.owned, h.attempted, h.fresh⟩, h.clean⟩

/-
  One event: the process restarts cleanly, or it has stopped
  at a fault.
-/
theorem Restarts.step
    (h : Restarts n)
    (hRun : n.fault = none)
    {e : NodeEvent}
    (hUnspoiled : Unspoiled env n e) :
    Restarts (n.step env e) ∨
      (Attempts (n.step env e) ∧
        (n.step env e).fault ≠ none) := by
  cases e with
  | data src packet =>
      have hGood := hUnspoiled src packet rfl
      rcases h.owned.step_data env src packet hRun with
        ⟨ack, counted, k, k', hStep, hPart, hEnd⟩ |
        ⟨p, r, f, _, _, hEnd⟩
      · by_cases hQuiet : ack = none → k.trace = n.trace
        · left
          have hClosed : Closed env .ihave Restarts :=
            restarts_closed
          have hLast : Restarts k' :=
            hClosed.getMoves (h.data hStep hGood hQuiet)
              hPart.1
          rcases hEnd with ⟨hEnd, _⟩ | ⟨f, _, _, hEnd⟩
          · rw [hEnd]
            cases ack with
            | none => exact hLast
            | some ackNum =>
                exact ⟨⟨hLast.owned, hLast.attempted,
                  hLast.fresh⟩, hLast.clean⟩
          · rw [hEnd]
            exact ⟨hLast.toAttempts.halt f, hLast.clean⟩
        · -- it stops in `finish_chunk`
          right
          rcases hEnd with ⟨_, hTrace⟩ | ⟨f, _, _, hEnd⟩
          · exact absurd hTrace hQuiet
          have hNone : ack = none := by
            by_contra hSome
            exact hQuiet fun hNone => absurd hNone hSome
          subst hNone
          have hSame := hPart.2 hStep.uncounted
          rw [hEnd, hSame]
          exact ⟨(h.toAttempts.data hStep).halt f,
            by simp⟩
      · left
        rw [hEnd]
        exact ⟨⟨h.owned.heard env p, h.attempted, h.fresh⟩,
          h.clean⟩
  | userGet _ _ =>
      exact .inl (restarts_closed.step trivial
        (fun _ _ hIs => nomatch hIs) h)
  | timeoutCheck =>
      exact .inl (restarts_closed.step trivial
        (fun _ _ hIs => nomatch hIs) h)
  | getAllTheThingz =>
      exact .inl (restarts_closed.step trivial
        (fun _ _ hIs => nomatch hIs) h)
  | ihave _ _ =>
      exact .inl (restarts_closed.step trivial
        (fun _ _ hIs => nomatch hIs) h)
  | peerCc => exact .inl (h.served env id)
  | get _ _ => exact .inl (h.served env id)
  | ack _ _ => exact .inl (h.served env id)

end

end PeerNet
