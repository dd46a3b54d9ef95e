import PeerNet.Packets.Slots
import PeerNet.Receiver.Links

/-
  One fetch, as a reassembly buffer.

  A chunk that is being fetched holds a buffer: its nodes are
  the slots, `total_data` is the volume and `next_expected`
  tells the filled prefix. DATA of the fetch is one `put`
  into the buffer. The put that brings the volume to the
  size of a chunk ends the fetch, and `finish_chunk` gets
  the buffer.

  Main declarations:
    * `Holds`
    * `FetchOf`
    * `FetchOf.data`
    * `FetchOf.step`
-/

------------------------------------------------------------
-- A Chunk That Holds a Buffer
------------------------------------------------------------

namespace PeerNet

open Reassembly

/- The total size of the payloads in a buffer. -/
abbrev bufferSize
    (slots : List (Option Bytes)) : Nat :=
  volume List.length slots

/- The chunk is fetched from `p` and holds the buffer. -/
structure Holds
    (chunk : BtChunk)
    (p : PeerRef)
    (slots : List (Option Bytes)) : Prop where
  peer : chunk.peer = some p
  packets : chunk.packets = .live (nodesOf slots)
  totalData : chunk.totalData = bufferSize slots
  nextExpected :
    chunk.nextExpected = (firstGap slots : Nat) + 1

/- The number that acknowledges the filled prefix. -/
def prefixAck
    (slots : List (Option Bytes)) : Int :=
  firstGap slots

/- The slot of a packet. -/
def Packet.slot
    (packet : Packet) : Nat :=
  (packet.seq - 1).toNat

theorem Packet.seq_eq
    {packet : Packet}
    (hLow : initSeqnum ≤ packet.seq) :
    packet.seq = ((packet.slot + 1 : Nat) : Int) := by
  have hPos : 1 ≤ packet.seq := hLow
  unfold Packet.slot
  omega

/- The buffer after a packet. -/
def putPacket
    (slots : List (Option Bytes))
    (packet : Packet) : List (Option Bytes) :=
  put slots packet.slot packet.payload

/- A packet is a put into its slot. -/
theorem storePacket_packet
    (slots : List (Option Bytes))
    {packet : Packet}
    (hLow : initSeqnum ≤ packet.seq) :
    storePacket (nodesOf slots) packet.seq packet.payload =
      if (content slots packet.slot).isSome then none
      else some (nodesOf (putPacket slots packet)) := by
  have hStore :=
    storePacket_nodesOf slots packet.slot packet.payload
  rw [← Packet.seq_eq hLow] at hStore
  exact hStore

theorem putPacket_of_content
    {slots : List (Option Bytes)}
    {packet : Packet}
    (hFilled : (content slots packet.slot).isSome) :
    putPacket slots packet = slots :=
  put_of_content hFilled packet.payload

theorem storedNodes_nodesOf
    (slots : List (Option Bytes))
    {packet : Packet}
    (hLow : initSeqnum ≤ packet.seq) :
    storedNodes (nodesOf slots) packet =
      nodesOf (putPacket slots packet) := by
  have hStore := storePacket_packet slots hLow
  unfold storedNodes
  by_cases hFilled : (content slots packet.slot).isSome
  · rw [if_pos hFilled] at hStore
    rw [hStore, putPacket_of_content hFilled,
      Option.getD_none]
  · rw [if_neg hFilled] at hStore
    rw [hStore, Option.getD_some]

/- `add_packet_list` is a put. -/
theorem Holds.take
    {chunk : BtChunk}
    {p : PeerRef}
    {slots : List (Option Bytes)}
    (h : Holds chunk p slots)
    {packet : Packet}
    (hLow : initSeqnum ≤ packet.seq) :
    Holds (chunk.take (nodesOf slots) packet) p
      (putPacket slots packet) := by
  have hChunk : Assembled chunk slots :=
    ⟨h.packets, h.totalData, h.nextExpected⟩
  have hTaken := hChunk.add packet.slot packet.payload
  rw [← Packet.seq_eq hLow] at hTaken
  refine ⟨?_, hTaken.packets, hTaken.totalData,
    hTaken.nextExpected⟩
  rw [BtChunk.take_peer]
  exact h.peer

end PeerNet

------------------------------------------------------------
-- A Fetch
------------------------------------------------------------

namespace PeerNet

open Reassembly

/- DATA from `src` is put into the buffer of chunk `r`. -/
structure FetchOf
    (c : BtConfig)
    (src : Addr)
    (p : PeerRef)
    (r : ChunkRef)
    (slots : List (Option Bytes)) : Prop
    extends Fetching c src p r where
  holds : ∃ chunk, c.chunk r = some chunk ∧
    Holds chunk p slots

/- Nothing is fetched from `src`. -/
structure FetchNone
    (c : BtConfig)
    (src : Addr)
    (p : PeerRef) : Prop where
  found : peerWithAddr src c = some p
  free : (c.peer p).chunk = none

/- What `add_packet` takes, whoever sent it. -/
structure Acceptable
    (packet : Packet) : Prop where
  low : initSeqnum ≤ packet.seq
  high : packet.seq ≤ maxSeqnum
  whole : packet.Whole

/- No chunk is finished in the trace. -/
def Unfinished
    (trace : List Event) : Prop :=
  ∀ r packets, .finishChunk r packets ∉ trace

theorem FetchOf.not_loose
    {c : BtConfig}
    {src : Addr}
    {p : PeerRef}
    {r : ChunkRef}
    {slots : List (Option Bytes)}
    (h : FetchOf c src p r slots) :
    ¬ Loose c src := by
  rintro ⟨q, s, ⟨hFound, hAssigned⟩, hNone⟩
  have hSame : p = q :=
    Option.some.inj (h.found.symm.trans hFound)
  subst hSame
  have hChunk : r = s :=
    Option.some.inj (h.assigned.symm.trans hAssigned)
  subst hChunk
  rcases h.holds with ⟨chunk, hLive, hHolds⟩
  have hPeer := hHolds.peer
  rw [hNone chunk hLive] at hPeer
  cases hPeer

/- Only peers and their addresses are looked at. -/
theorem peerWithAddr_congr
    {c c' : BtConfig}
    (hPeers : c'.peers = c.peers)
    (hAddr : ∀ p, (c'.peer p).addr = (c.peer p).addr)
    (src : Addr) :
    peerWithAddr src c' = peerWithAddr src c := by
  unfold peerWithAddr
  simp only [hPeers, hAddr]

section

variable {env : Env} {n : Node} {src : Addr}
variable {packet : Packet} {p q : PeerRef} {r : ChunkRef}
variable {chunk : BtChunk} {nodes : List BtPacket}

/- Hearing a peer moves neither its address nor its chunk. -/
theorem heard_peerWithAddr
    (src' : Addr) :
    peerWithAddr src' (n.heard env p).config =
      peerWithAddr src' n.config := by
  apply peerWithAddr_congr
  · simp [Node.heard, BtConfig.heardData]
  intro q
  by_cases hq : q = p
  · subst hq
    simp [Node.heard, BtConfig.heardData]
  · simp [Node.heard, BtConfig.heardData, hq]

theorem heard_peer_chunk
    (q : PeerRef) :
    ((n.heard env p).config.peer q).chunk =
      (n.config.peer q).chunk := by
  by_cases hq : q = p
  · subst hq
    simp [Node.heard, BtConfig.heardData]
  · simp [Node.heard, BtConfig.heardData, hq]

theorem keep_peerWithAddr
    (src' : Addr) :
    peerWithAddr src' (n.keep r chunk).config =
      peerWithAddr src' n.config := by
  apply peerWithAddr_congr
  · simp [Node.keep]
  · simp [Node.keep]

theorem release_peerWithAddr
    (packets : BtPackets)
    (src' : Addr) :
    peerWithAddr src' (n.release q r packets).config =
      peerWithAddr src' n.config := by
  apply peerWithAddr_congr
  · simp [Node.release]
  intro s
  by_cases hs : s = q
  · subst hs
    simp [Node.release]
  · simp [Node.release, hs]

theorem filled_peerWithAddr
    (src' : Addr) :
    peerWithAddr src'
        (n.filled env packet p q r chunk nodes).config =
      peerWithAddr src' n.config := by
  unfold Node.filled
  rw [release_peerWithAddr, keep_peerWithAddr,
    heard_peerWithAddr]

/- `finish_chunk` frees the peer of the chunk. -/
theorem filled_peer_chunk :
    ((n.filled env packet p q r chunk nodes).config.peer
      q).chunk = none := by
  simp [Node.filled, Node.release]

theorem filled_trace :
    (n.filled env packet p q r chunk nodes).trace =
      n.trace ++
        [.finishChunk r
          (.live (storedNodes nodes packet))] := by
  simp [Node.filled, Node.release, Node.keep, Node.heard]

/- After `finish_chunk` nothing is fetched. -/
theorem FetchNone.filled
    (hFound : peerWithAddr src n.config = some q) :
    FetchNone
      (n.filled env packet p q r chunk nodes).config src
      q where
  found := by
    rw [filled_peerWithAddr]
    exact hFound
  free := filled_peer_chunk

end

end PeerNet

------------------------------------------------------------
-- The Start of a Fetch
------------------------------------------------------------

namespace PeerNet

section

variable {env : Env} {n : Node} {p : PeerRef}
variable {r : ChunkRef} {chunk : BtChunk} {dest : Addr}

theorem fetch_peerWithAddr
    (src : Addr) :
    peerWithAddr src (n.fetch env p r chunk dest).config =
      peerWithAddr src n.config := by
  apply peerWithAddr_congr
  · simp [Node.fetch, BtConfig.fetch, BtConfig.assign]
  intro q
  by_cases hq : q = p
  · subst hq
    simp [Node.fetch, BtConfig.fetch, BtConfig.assign]
  · simp [Node.fetch, BtConfig.fetch, BtConfig.assign, hq]

end

end PeerNet

------------------------------------------------------------
-- DATA of the Fetch
------------------------------------------------------------

namespace PeerNet

open Reassembly

section

variable {env : Env} {n m : Node} {src : Addr}
variable {packet : Packet} {p : PeerRef} {r : ChunkRef}
variable {slots : List (Option Bytes)}

/- Appending traces without a finished chunk. -/
theorem Unfinished.nil :
    Unfinished [] := by
  intro r packets h
  cases h

theorem Unfinished.append
    {trace : List Event}
    (h : Unfinished trace)
    {e : Event}
    (hNew : ∀ r packets, e ≠ .finishChunk r packets) :
    Unfinished (trace ++ [e]) := by
  intro r packets hMem
  rcases List.mem_append.mp hMem with hOld | hLast
  · exact h r packets hOld
  · exact hNew r packets (List.mem_singleton.mp hLast).symm

/- `finish_chunk` has had the buffer, and the fetch is over. -/
structure FetchOver
    (n m : Node)
    (src : Addr)
    (p : PeerRef)
    (r : ChunkRef)
    (slots : List (Option Bytes)) : Prop where
  none : FetchNone m.config src p
  trace : ∃ rest,
    m.trace =
        n.trace ++
          .finishChunk r (.live (nodesOf slots)) :: rest ∧
      Unfinished rest
  queue : m.queue = n.queue

/- Another line of output does not matter. -/
theorem FetchOver.emit
    (h : FetchOver n m src p r slots)
    {e : Event}
    (hNew : ∀ s packets, e ≠ .finishChunk s packets) :
    FetchOver n (m.emit e) src p r slots := by
  rcases h.trace with ⟨rest, hTrace, hRest⟩
  refine ⟨h.none, ⟨rest ++ [e], ?_, hRest.append hNew⟩,
    h.queue⟩
  rw [Node.emit_trace, hTrace]
  simp

/- `finish_get` fetches and finishes nothing. -/
theorem FetchOver.getMoves
    {k : Node}
    (h : FetchOver n m src p r slots)
    (hMoves : GetMoves m k) :
    FetchOver n k src p r slots := by
  induction hMoves with
  | refl => exact h
  | tail _ hMove ih =>
      cases hMove with
      | entered _ => exact ih.emit (by simp)
      | files g => exact ⟨ih.none, ih.trace, ih.queue⟩
      | got => exact ih.emit (by simp)
      | dropped _ =>
          exact ⟨⟨ih.none.found, ih.none.free⟩, ih.trace,
            ih.queue⟩

/- Recording the chunk does not start a fetch either. -/
theorem FetchOver.recorded
    (h : FetchOver n m src p r slots)
    (s : ChunkRef)
    (id : Int)
    (hash : Hash) :
    FetchOver n (m.recorded s id hash) src p r slots := by
  refine ⟨⟨?_, ?_⟩, ?_, ?_⟩
  · rw [← h.none.found]
    apply peerWithAddr_congr
    · simp [Node.recorded]
    · simp [Node.recorded]
  · simpa [Node.recorded] using h.none.free
  · simpa [Node.recorded] using h.trace
  · simpa [Node.recorded] using h.queue

/- A packet that a fetch can take, it takes. -/
theorem FetchOf.taking
    (h : FetchOf n.config src p r slots)
    (hAccept : Acceptable packet) :
    ∃ chunk, Holds chunk p slots ∧
      Taking n.config src packet p r chunk
        (nodesOf slots) := by
  rcases h.holds with ⟨chunk, hLive, hHolds⟩
  exact ⟨chunk, hHolds, h.toFetching, hAccept.low,
    hAccept.high, hLive, hHolds.packets⟩

/- The fetch determines what DATA is taken for. -/
theorem FetchOf.unique
    (h : FetchOf n.config src p r slots)
    {q : PeerRef}
    {s : ChunkRef}
    {chunk : BtChunk}
    {nodes : List BtPacket}
    (hTaking :
      Taking n.config src packet q s chunk nodes) :
    p = q ∧ r = s ∧ nodes = nodesOf slots ∧
      Holds chunk p slots := by
  have hPeer : p = q :=
    Option.some.inj (h.found.symm.trans hTaking.found)
  subst hPeer
  have hRef : r = s :=
    Option.some.inj (h.assigned.symm.trans hTaking.assigned)
  subst hRef
  rcases h.holds with ⟨chunk', hLive, hHolds⟩
  have hChunk : chunk' = chunk :=
    Option.some.inj (hLive.symm.trans hTaking.live)
  subst hChunk
  have hNodes :=
    hHolds.packets.symm.trans hTaking.packets
  rw [BtPackets.live.injEq] at hNodes
  exact ⟨rfl, rfl, hNodes.symm, hHolds⟩

/- The state after a packet that does not end the fetch. -/
theorem FetchOf.kept
    (h : FetchOf n.config src p r slots)
    {chunk : BtChunk}
    (hLive : n.config.chunk r = some chunk)
    (hHolds : Holds chunk p slots)
    (hLow : initSeqnum ≤ packet.seq) :
    FetchOf
      ((n.heard env p).keep r
        (chunk.take (nodesOf slots) packet)).config
      src p r (putPacket slots packet) where
  found := by
    rw [keep_peerWithAddr, heard_peerWithAddr]
    exact h.found
  assigned := by
    have hSame :
        ((n.heard env p).config.peer p).chunk =
          (n.config.peer p).chunk :=
      heard_peer_chunk p
    rw [h.assigned] at hSame
    simpa [Node.keep] using hSame
  holds := by
    refine ⟨chunk.take (nodesOf slots) packet, ?_,
      hHolds.take hLow⟩
    simp [Node.keep, Node.heard, BtConfig.heardData, hLive]

/- Filling the chunk ends the fetch. -/
theorem FetchOver.filled
    (env : Env)
    (h : FetchOf n.config src p r slots)
    {chunk : BtChunk}
    {q : PeerRef}
    {nodes : List BtPacket}
    (hFilling :
      Filling n.config src packet p q r chunk nodes) :
    btChunkSize ≤ bufferSize (putPacket slots packet) ∧
      (chunk.take nodes packet).ackNum =
        prefixAck (putPacket slots packet) ∧
      FetchOver n (n.filled env packet p q r chunk nodes)
        src p r (putPacket slots packet) := by
  rcases h.unique hFilling.toTaking with
    ⟨_, _, hNodes, hHolds⟩
  subst hNodes
  have hTake := hHolds.take hFilling.low
  have hFull := hFilling.full
  rw [hTake.totalData] at hFull
  have hOwner : p = q :=
    Option.some.inj (hHolds.peer.symm.trans hFilling.owner)
  subst hOwner
  refine ⟨hFull, ?_, ?_⟩
  · rw [BtChunk.ackNum, hTake.nextExpected,
      add_sub_cancel_right, prefixAck]
  · refine ⟨FetchNone.filled h.found, ⟨[], ?_, .nil⟩, ?_⟩
    · rw [filled_trace, storedNodes_nodesOf slots hFilling.low]
    · simp [Node.filled, Node.release, Node.keep,
        Node.heard]

/- What a fetch can take is not refused. -/
theorem FetchOf.not_refused
    (h : FetchOf n.config src p r slots)
    (hAccept : Acceptable packet)
    {q : PeerRef}
    {s : ChunkRef}
    (hFetching : Fetching n.config src q s) :
    ¬ ∀ chunk nodes,
      Taking n.config src packet q s chunk nodes →
        ¬ packet.Whole := by
  intro hTorn
  rcases h.taking hAccept with ⟨chunk, hHolds, hTaking⟩
  have hPeer : p = q :=
    Option.some.inj (h.found.symm.trans hFetching.found)
  subst hPeer
  have hRef : r = s :=
    Option.some.inj
      (h.assigned.symm.trans hFetching.assigned)
  subst hRef
  exact hTorn chunk _ hTaking hAccept.whole

/- What a packet does to a fetch. -/
theorem FetchOf.data
    (h : FetchOf n.config src p r slots)
    (hAccept : Acceptable packet)
    {ack : Option Int}
    {counted : Bool}
    (hStep : DataStep env src packet n ack counted m) :
    (bufferSize (putPacket slots packet) < btChunkSize ∧
      ack = some (prefixAck (putPacket slots packet)) ∧
      counted = false ∧
      FetchOf m.config src p r (putPacket slots packet) ∧
      m.fault = n.fault ∧ m.trace = n.trace ∧
      m.queue = n.queue) ∨
    (btChunkSize ≤ bufferSize (putPacket slots packet) ∧
      (ack = none ∨
        ack = some (prefixAck (putPacket slots packet))) ∧
      FetchOver n m src p r (putPacket slots packet)) := by
  cases hStep with
  | ignored hNone => exact absurd h.toFetching (hNone p r)
  | refused q s hFetching hTorn =>
      exact absurd hTorn (h.not_refused hAccept hFetching)
  | stored q s chunk nodes hTaking hShort =>
      rcases h.unique hTaking with
        ⟨hPeer, hRef, hNodes, hHolds⟩
      subst hPeer hRef hNodes
      have hTake := hHolds.take hAccept.low
      rw [hTake.totalData] at hShort
      refine .inl ⟨hShort, ?_, rfl,
        h.kept hTaking.live hHolds hAccept.low, ?_, ?_, ?_⟩
      · rw [BtChunk.ackNum, hTake.nextExpected,
          add_sub_cancel_right, prefixAck]
      · simp [Node.keep, Node.heard]
      · simp [Node.keep, Node.heard]
      · simp [Node.keep, Node.heard]
  | stopped q s t chunk nodes g f hFilling hStop =>
      rcases h.unique hFilling.toTaking with
        ⟨hPeer, hRef, _, _⟩
      subst hPeer hRef
      rcases FetchOver.filled env h hFilling with
        ⟨hFull, _, hOver⟩
      exact .inr ⟨hFull, .inl rfl,
        ⟨hOver.none, hOver.trace, hOver.queue⟩⟩
  | rejected q s t chunk nodes hFilling hHash =>
      rcases h.unique hFilling.toTaking with
        ⟨hPeer, hRef, _, _⟩
      subst hPeer hRef
      rcases FetchOver.filled env h hFilling with
        ⟨hFull, hAck, hOver⟩
      exact .inr ⟨hFull, .inr (by rw [hAck]),
        hOver.emit (by simp)⟩
  | unrecorded q s t chunk nodes hFilling hHash hClosed =>
      rcases h.unique hFilling.toTaking with
        ⟨hPeer, hRef, _, _⟩
      subst hPeer hRef
      rcases FetchOver.filled env h hFilling with
        ⟨hFull, hAck, hOver⟩
      exact .inr ⟨hFull, .inr (by rw [hAck]),
        hOver.emit (by simp)⟩
  | recorded q s t chunk nodes id hFilling hHash hOpen hId =>
      rcases h.unique hFilling.toTaking with
        ⟨hPeer, hRef, _, _⟩
      subst hPeer hRef
      rcases FetchOver.filled env h hFilling with
        ⟨hFull, hAck, hOver⟩
      exact .inr ⟨hFull, .inr (by rw [hAck]),
        hOver.recorded r id chunk.hash⟩

end

end PeerNet

------------------------------------------------------------
-- One Datagram
------------------------------------------------------------

namespace PeerNet

open Reassembly Prog

section

variable {env : Env} {n m : Node} {src : Addr}
variable {packet : Packet} {p : PeerRef} {r : ChunkRef}
variable {slots : List (Option Bytes)}

/- The fetch goes on, and its prefix is acknowledged. -/
structure FetchKept
    (n m : Node)
    (src : Addr)
    (p : PeerRef)
    (r : ChunkRef)
    (slots : List (Option Bytes)) : Prop where
  fetch : FetchOf m.config src p r slots
  fault : m.fault = none
  trace : m.trace = n.trace
  queue :
    m.queue =
      n.queue ++ [⟨ackPacket (prefixAck slots), src⟩]

/- The fetch is over; the answer may be missing. -/
structure FetchEnded
    (n m : Node)
    (src : Addr)
    (p : PeerRef)
    (r : ChunkRef)
    (slots : List (Option Bytes)) : Prop where
  none : FetchNone m.config src p
  trace : ∃ rest,
    m.trace =
        n.trace ++
          .finishChunk r (.live (nodesOf slots)) :: rest ∧
      Unfinished rest
  queue :
    m.queue = n.queue ∨
      m.queue =
        n.queue ++ [⟨ackPacket (prefixAck slots), src⟩]

/- What a process has written since it was `n`. -/
def Node.output
    (n m : Node) : List Event :=
  m.trace.drop n.trace.length

theorem Node.output_of_append
    {n m : Node}
    {events : List Event}
    (hTrace : m.trace = n.trace ++ events) :
    n.output m = events := by
  rw [Node.output, hTrace, List.drop_left]

/- `process_data` on a packet of the fetch. -/
theorem FetchOf.step
    (env : Env)
    (h : FetchOf n.config src p r slots)
    (hRun : n.fault = none)
    (hAccept : Acceptable packet) :
    (bufferSize (putPacket slots packet) < btChunkSize ∧
      FetchKept n (n.step env (.data src packet)) src p r
        (putPacket slots packet)) ∨
    (btChunkSize ≤ bufferSize (putPacket slots packet) ∧
      FetchEnded n (n.step env (.data src packet)) src p r
        (putPacket slots packet)) := by
  rcases step_data env packet hRun h.not_loose with
    ⟨ack, counted, k, k', hStep, hPart, hEnd⟩
  rcases h.data hAccept hStep with
    ⟨hShort, hAck, hCounted, hFetch, hFault, hTrace,
      hQueue⟩ |
    ⟨hFull, hAck, hOver⟩
  · -- `finish_chunk` is not called
    refine .inl ⟨hShort, ?_⟩
    have hSame := hPart.2 hCounted
    subst hSame
    rcases hEnd with ⟨hEnd, _⟩ | ⟨f, _, hWhich, _⟩
    · rw [hEnd, hAck]
      refine ⟨hFetch, hFault.trans hRun, hTrace, ?_⟩
      simp [Node.answer, hQueue]
    · rcases hWhich with hNone | hCount
      · rw [hAck] at hNone
        cases hNone
      · rw [hCounted] at hCount
        cases hCount
  · -- `finish_chunk` is called, and perhaps `finish_get`
    refine .inr ⟨hFull, ?_⟩
    have hOver' := hOver.getMoves hPart.1
    rcases hEnd with ⟨hEnd, _⟩ | ⟨f, _, _, hEnd⟩
    · rw [hEnd]
      rcases hAck with hAck | hAck
      · rw [hAck]
        exact ⟨hOver'.none, hOver'.trace,
          .inl hOver'.queue⟩
      · rw [hAck]
        refine ⟨⟨hOver'.none.found, hOver'.none.free⟩,
          hOver'.trace, .inr ?_⟩
        simp [Node.answer, hOver'.queue]
    · rw [hEnd]
      exact ⟨⟨hOver'.none.found, hOver'.none.free⟩,
        hOver'.trace, .inl hOver'.queue⟩

/- DATA from a peer nothing is fetched from is dropped. -/
theorem FetchNone.step
    (h : FetchNone n.config src p) :
    n.step env (.data src packet) = n := by
  have hDrop :
      wp (processData env src packet) (fun _ m => m = n)
        (fun _ _ => False) n := by
    unfold processData
    rw [wp_bind, wp_get]
    simp [h.found, h.free]
  unfold Node.step handle
  rw [Node.exec_discard]
  unfold Node.exec
  unfold wp at hDrop
  split
  · rfl
  · split
    · next m hRun =>
        rw [hRun] at hDrop
        exact hDrop
    · next f m hRun =>
        rw [hRun] at hDrop
        exact hDrop.elim

end

end PeerNet

------------------------------------------------------------
-- A Process That Fetches a Chunk
------------------------------------------------------------

namespace PeerNet

open Runs

/- The one chunk is asked of the one peer. -/
def askedNode : Node :=
  foldSteps (Node.step stillEnv) oneChunkNode
    [.userGet [4] [3], .ihave ⟨1, 1⟩ oneChunkIhave,
      .getAllTheThingz]

theorem askedNode_fetch :
    FetchOf askedNode.config ⟨1, 1⟩ 0 0 [] := by
  have hChunk :
      (askedNode.config.chunk 0).map
          (fun chunk =>
            (chunk.peer, chunk.packets, chunk.totalData,
              chunk.nextExpected)) =
        some (some 0, .live [], 0, 1) := by
    decide
  rcases Option.map_eq_some_iff.mp hChunk with
    ⟨chunk, hLive, hFields⟩
  simp only [Prod.mk.injEq] at hFields
  refine ⟨⟨?_, ?_⟩, chunk, hLive, ?_⟩
  · decide
  · decide
  · exact ⟨hFields.1, hFields.2.1, hFields.2.2.1,
      hFields.2.2.2⟩

theorem askedNode_fault :
    askedNode.fault = none := by
  decide

end PeerNet
