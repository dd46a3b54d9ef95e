import PeerNet.Network.Messages
import PeerNet.Packets.Chunk
import PeerNet.Sender.Visits

/-
  A single transfer.

  One process serves a chunk to another, over a network that
  loses, duplicates and reorders their messages. The slots
  of the receiver only ever hold the parts of the chunk, an
  ACK on the network was sent with at most the prefix that
  is filled by now, and so the sender never counts a packet
  as acknowledged that was not stored.

  Main declarations:
    * `TransferStart`
    * `TransferStep`
    * `TransferInv`
    * `TransferInv.step`
    * `transfer_safe`
-/

------------------------------------------------------------
-- The Transfer
------------------------------------------------------------

namespace PeerNet

open Reassembly Runs

/- What runs: the sender's passes and the deliveries. -/
def TransferStep
    (a b : Addr)
    (σ : System) :
    SystemEvent → Prop
| .peerCc x => x = a
| .deliver m =>
    m ∈ σ.net ∧
      (m.src = a ∧ m.dest = b ∧
          m.packet.header.type = typeData ∨
        m.src = b ∧ m.dest = a ∧
          m.packet.header.type = typeAck)
| _ => False

/-
  `a` has just made its upload of the chunk to `b`, which has
  just asked for it.
-/
structure TransferStart
    (chunk : Bytes)
    (a b : Addr)
    (p : PeerRef)
    (r : ChunkRef)
    (σ : System) : Prop where
  apart : a ≠ b
  size : chunk.length = btChunkSize
  upload :
    ∀ s, (σ.node a).config.sendsTo b s →
      s =
        newSender s.hash
          (some ((dataPackets chunk btChunkSize).map some))
          (numPackets btChunkSize) s.peer
  fetch : FetchOf (σ.node b).config a p r []
  running : (σ.node b).fault = none
  sent : (σ.node a).queue = []
  answered : (σ.node b).queue = []
  noData :
    ∀ m ∈ σ.net, m.src = a → m.dest = b →
      m.packet.header.type ≠ typeData
  noAck :
    ∀ m ∈ σ.net, m.src = b → m.dest = a →
      m.packet.header.type ≠ typeAck

/- The buffer after an event. -/
def stepSlots
    (slots : List (Option Bytes)) :
    SystemEvent → List (Option Bytes)
| .deliver m =>
    if m.packet.header.type = typeData then
      putPacket slots m.packet
    else
      slots
| _ => slots

/- The receiver still fetches; it finished nothing so far. -/
structure Underway
    (chunk : Bytes)
    (a : Addr)
    (p : PeerRef)
    (r : ChunkRef)
    (slots : List (Option Bytes))
    (n₀ n : Node) : Prop where
  fetch : FetchOf n.config a p r slots
  running : n.fault = none
  trace : n.trace = n₀.trace
  missing : slots ≠ (chunkParts chunk).map some

/- The receiver has had the chunk, and finished it once. -/
structure Completed
    (env : Env)
    (chunk : Bytes)
    (a : Addr)
    (p : PeerRef)
    (r : ChunkRef)
    (slots : List (Option Bytes))
    (n₀ n : Node) : Prop where
  none : FetchNone n.config a p
  trace : ∃ rest,
    n.trace =
        n₀.trace ++
          .finishChunk r (.live (nodesOf slots)) :: rest ∧
      Unfinished rest
  full : slots = (chunkParts chunk).map some
  buffer :
    writeToBuffer env (nodesOf slots) = .ok chunk

/- The upload serves the chunk, and counts what is stored. -/
structure Serving
    (chunk : Bytes)
    (slots : List (Option Bytes))
    (s : BtSender) : Prop where
  packets :
    s.packets =
      some ((numbered 1 (chunkParts chunk)).map some)
  count : s.numPackets = (chunkParts chunk).length
  low : 0 ≤ s.lastAcked
  acked : s.lastAcked ≤ (firstGap slots : Nat)

/- What holds all along a transfer. -/
structure TransferInv
    (env : Addr → Env)
    (chunk : Bytes)
    (a b : Addr)
    (p : PeerRef)
    (r : ChunkRef)
    (σ₀ σ : System)
    (slots : List (Option Bytes)) : Prop where
  fits : Fits slots (chunkParts chunk)
  uploads :
    ∀ s, (σ.node a).config.sendsTo b s →
      Serving chunk slots s
  receiver :
    Underway chunk a p r slots (σ₀.node b) (σ.node b) ∨
      Completed (env b) chunk a p r slots (σ₀.node b)
        (σ.node b)
  sent : (σ.node a).queue = []
  answered : (σ.node b).queue = []
  data :
    ∀ m ∈ σ.net, m.src = a → m.dest = b →
      m.packet.header.type = typeData →
        m.packet ∈ numbered 1 (chunkParts chunk)
  acks :
    ∀ m ∈ σ.net, m.src = b → m.dest = a →
      m.packet.header.type = typeAck →
        ∃ k : Nat, k ≤ firstGap slots ∧
          m.packet = ackPacket k

end PeerNet

------------------------------------------------------------
-- One Step of the Transfer
------------------------------------------------------------

namespace PeerNet

open Reassembly PeerNet.System

section

variable {env : Addr → Env} {chunk : Bytes} {a b : Addr}
variable {p : PeerRef} {r : ChunkRef} {σ₀ σ : System}
variable {slots : List (Option Bytes)} {s : BtSender}

theorem TransferStart.inv
    (h : TransferStart chunk a b p r σ) :
    TransferInv env chunk a b p r σ σ [] where
  fits := .nil _
  uploads := by
    intro s hs
    rw [h.upload s hs]
    constructor
    · rw [newSender, dataPackets_eq h.size.ge]
    · rw [newSender, length_parts]
    · exact le_refl _
    · exact le_refl _
  receiver := by
    refine .inl ⟨h.fetch, h.running, rfl, ?_⟩
    intro hNone
    have hLength := congrArg List.length hNone
    rw [List.length_map, length_chunkParts] at hLength
    cases hLength
  sent := h.sent
  answered := h.answered
  data := by
    intro m hm hSrc hDest hType
    exact absurd hType (h.noData m hm hSrc hDest)
  acks := by
    intro m hm hSrc hDest hType
    exact absurd hType (h.noAck m hm hSrc hDest)

/- More packets stored leave an upload sound. -/
theorem Serving.put
    (h : Serving chunk slots s)
    (packet : Packet) :
    Serving chunk (putPacket slots packet) s where
  packets := h.packets
  count := h.count
  low := h.low
  acked := by
    have hLe := firstGap_le_put slots packet.slot
      packet.payload
    have hAcked := h.acked
    unfold putPacket
    omega

theorem Serving.same
    {t : BtSender}
    (h : Serving chunk slots s)
    (hSame : SameUpload s t) :
    Serving chunk slots t where
  packets := hSame.packets.trans h.packets
  count := hSame.numPackets.trans h.count
  low := by
    rw [hSame.lastAcked]
    exact h.low
  acked := by
    rw [hSame.lastAcked]
    exact h.acked

/- What an upload of the chunk sends is a packet of it. -/
theorem Serving.carries
    {packet : Packet}
    (h : Serving chunk slots s)
    (hCarries : s.Carries packet) :
    packet ∈ numbered 1 (chunkParts chunk) := by
  rcases hCarries with ⟨packets, hPackets, hMem⟩
  rw [h.packets] at hPackets
  rw [← Option.some.inj hPackets] at hMem
  simpa using hMem

/- What a step at the sender has to keep. -/
theorem TransferInv.atSender
    {e : SystemEvent}
    {ne : NodeEvent}
    (h : TransferInv env chunk a b p r σ₀ σ slots)
    (hApart : a ≠ b)
    (hPlace : place e = a)
    (hEvent : nodeEvent e = some ne)
    (hUploads :
      ∀ s, ((σ.node a).step (env a) ne).config.sendsTo b s →
        Serving chunk slots s)
    (hQueue :
      ∀ d ∈ ((σ.node a).step (env a) ne).queue,
        d.destAddr = b →
          d.packet ∈ numbered 1 (chunkParts chunk)) :
    TransferInv env chunk a b p r σ₀ (step env σ e)
      slots := by
  subst hPlace
  have hSender := step_node env σ hEvent
  have hReceiver :
      (step env σ e).node b = σ.node b :=
    step_node_of_ne hApart.symm
  constructor
  · exact h.fits
  · intro s hs
    apply hUploads
    rw [hSender] at hs
    exact hs
  · rw [hReceiver]
    exact h.receiver
  · rw [hSender]
  · rw [hReceiver]
    exact h.answered
  · intro m hm hSrc hDest hType
    rcases sent_of_mem_step hEvent hm with hOld | ⟨d, hSent⟩
    · exact h.data m hOld hSrc hDest hType
    · rw [hSent.packet]
      exact hQueue d hSent.mem (hSent.dest.symm.trans hDest)
  · intro m hm hSrc hDest hType
    rcases sent_of_mem_step hEvent hm with hOld | ⟨_, hSent⟩
    · exact h.acks m hOld hSrc hDest hType
    · exact absurd (hSent.src.symm.trans hSrc) hApart

/- What a step at the receiver has to keep. -/
theorem TransferInv.atReceiver
    {e : SystemEvent}
    {ne : NodeEvent}
    {packet : Packet}
    (h : TransferInv env chunk a b p r σ₀ σ slots)
    (hApart : a ≠ b)
    (hPlace : place e = b)
    (hEvent : nodeEvent e = some ne)
    (hPacket : packet ∈ numbered 1 (chunkParts chunk))
    (hReceiver :
      Underway chunk a p r (putPacket slots packet)
          (σ₀.node b) ((σ.node b).step (env b) ne) ∨
        Completed (env b) chunk a p r
          (putPacket slots packet) (σ₀.node b)
          ((σ.node b).step (env b) ne))
    (hQueue :
      ∀ d ∈ ((σ.node b).step (env b) ne).queue,
        d.packet =
          ackPacket
            (prefixAck (putPacket slots packet))) :
    TransferInv env chunk a b p r σ₀ (step env σ e)
      (putPacket slots packet) := by
  subst hPlace
  have hNode := step_node env σ hEvent
  have hSender : (step env σ e).node a = σ.node a :=
    step_node_of_ne hApart
  have hGrown := firstGap_le_put slots packet.slot
    packet.payload
  constructor
  · exact putPacket_fits h.fits hPacket
  · intro s hs
    rw [hSender] at hs
    exact (h.uploads s hs).put packet
  · rw [hNode]
    rcases hReceiver with hUnderway | hCompleted
    · exact .inl
        ⟨⟨hUnderway.fetch.toFetching,
            hUnderway.fetch.holds⟩,
          hUnderway.running, hUnderway.trace,
          hUnderway.missing⟩
    · exact .inr
        ⟨⟨hCompleted.none.found, hCompleted.none.free⟩,
          hCompleted.trace, hCompleted.full,
          hCompleted.buffer⟩
  · rw [hSender]
    exact h.sent
  · rw [hNode]
  · intro m hm hSrc hDest hType
    rcases sent_of_mem_step hEvent hm with hOld | ⟨_, hSent⟩
    · exact h.data m hOld hSrc hDest hType
    · exact absurd (hSrc.symm.trans hSent.src) hApart
  · intro m hm hSrc hDest hType
    rcases sent_of_mem_step hEvent hm with hOld | ⟨d, hSent⟩
    · rcases h.acks m hOld hSrc hDest hType with
        ⟨k, hk, hIs⟩
      exact ⟨k, hk.trans hGrown, hIs⟩
    · refine ⟨firstGap (putPacket slots packet), le_refl _,
        ?_⟩
      rw [hSent.packet]
      exact hQueue d hSent.mem

/- A pass of `peer_cc`. -/
theorem TransferInv.pass
    (h : TransferInv env chunk a b p r σ₀ σ slots)
    (hApart : a ≠ b) :
    TransferInv env chunk a b p r σ₀
      (step env σ (.peerCc a)) slots := by
  have hEvent :
      nodeEvent (.peerCc a) = some .peerCc := rfl
  apply h.atSender hApart rfl hEvent
  · intro t ht
    rcases step_peerCc_uploads ht with ⟨s, hs, hSame⟩
    exact (h.uploads s hs).same hSame
  · intro d hd hDest
    rcases step_peerCc_queue hd with
      hOld | ⟨s, packet, hs, hCarries, hCopy⟩
    · rw [h.sent] at hOld
      cases hOld
    · rw [hDest] at hs
      have hPacket := (h.uploads s hs).carries hCarries
      rw [hCopy, (mem_chunkPackets hPacket).2.2.1]
      exact hPacket

/- DATA comes to the receiver. -/
theorem TransferInv.delivered
    {m : Message}
    (h : TransferInv env chunk a b p r σ₀ σ slots)
    (hApart : a ≠ b)
    (hSize : chunk.length = btChunkSize)
    (hMem : m ∈ σ.net)
    (hSrc : m.src = a)
    (hDest : m.dest = b)
    (hType : m.packet.header.type = typeData) :
    TransferInv env chunk a b p r σ₀
      (step env σ (.deliver m))
      (putPacket slots m.packet) := by
  have hPacket := h.data m hMem hSrc hDest hType
  have hPlace : place (.deliver m) = b := hDest
  have hEvent := nodeEvent_data hType
  rw [hSrc] at hEvent
  have hFits := putPacket_fits h.fits hPacket
  rcases h.receiver with hUnderway | hCompleted
  · -- the fetch takes it
    rcases hUnderway.fetch.step (env b) hUnderway.running
        (mem_chunkPackets hPacket).2.1 with
      ⟨hShort, hKept⟩ | ⟨hFull, hEnded⟩
    · apply h.atReceiver hApart hPlace hEvent hPacket
      · refine .inl ⟨hKept.fetch, hKept.fault,
          hKept.trace.trans hUnderway.trace, ?_⟩
        intro hAll
        have hFull :=
          (bufferSize_full_iff hSize hFits).mpr hAll
        omega
      · intro d hd
        rw [hKept.queue, h.answered, List.nil_append,
          List.mem_singleton] at hd
        rw [hd]
    · have hAll := (bufferSize_full_iff hSize hFits).mp hFull
      apply h.atReceiver hApart hPlace hEvent hPacket
      · rcases hEnded.trace with ⟨rest, hTrace, hNone⟩
        refine .inr ⟨hEnded.none, ⟨rest, ?_, hNone⟩, hAll,
          ?_⟩
        · rw [hTrace, hUnderway.trace]
        · rw [hAll]
          exact writeToBuffer_chunkParts (env b) hSize
      · intro d hd
        rcases hEnded.queue with hNone | hAck
        · rw [hNone, h.answered] at hd
          cases hd
        · rw [hAck, h.answered, List.nil_append,
            List.mem_singleton] at hd
          rw [hd]
  · -- nothing is fetched any more
    have hSame : putPacket slots m.packet = slots := by
      rw [hCompleted.full]
      exact putPacket_full hPacket
    apply h.atReceiver hApart hPlace hEvent hPacket
    · rw [hCompleted.none.step, hSame]
      exact .inr hCompleted
    · intro d hd
      rw [hCompleted.none.step, h.answered] at hd
      cases hd

/- The ACK of a prefix. -/
theorem ackNum_ackPacket
    {k : Nat}
    (hk : k < 2 ^ 31) :
    (ackPacket k).header.ackNum.toNat = k ∧
      toInt32 (ackPacket k).header.ackNum = k := by
  constructor
  · have hSent := toNat_ofInt (i := (k : Int)) (by omega)
      (by omega)
    simpa [ackPacket, initPacketHead] using hSent
  · exact toInt32_ofInt (by omega) (by omega)

/- An ACK comes to the sender. -/
theorem TransferInv.acknowledged
    {m : Message}
    (h : TransferInv env chunk a b p r σ₀ σ slots)
    (hApart : a ≠ b)
    (hMem : m ∈ σ.net)
    (hSrc : m.src = b)
    (hDest : m.dest = a)
    (hType : m.packet.header.type = typeAck) :
    TransferInv env chunk a b p r σ₀
      (step env σ (.deliver m)) slots := by
  have hPlace : place (.deliver m) = a := hDest
  have hEvent := nodeEvent_ack hType
  rcases h.acks m hMem hSrc hDest hType with ⟨k, hk, hIs⟩
  have hLength := (firstGap_le_length slots).trans h.fits.1
  rw [length_chunkParts] at hLength
  have hAck := ackNum_ackPacket (k := k) (by omega)
  apply h.atSender hApart hPlace hEvent
  · intro t ht
    rcases step_ack_uploads ht with ⟨s, hs, hOld | ⟨hAcked, _⟩⟩
    · rw [hOld]
      exact h.uploads s hs
    · have hServing := h.uploads s hs
      rw [hAcked, hIs]
      constructor
      · rw [ackSender_packets]
        exact hServing.packets
      · rw [ackSender_numPackets]
        exact hServing.count
      · rw [ackSender_lastAcked]
        split
        · rw [hAck.2]
          omega
        · exact hServing.low
      · rw [ackSender_lastAcked]
        split
        · rw [hAck.2]
          omega
        · exact hServing.acked
  · intro d hd _
    rw [step_ack_queue, h.sent] at hd
    cases hd

/- Every step of the transfer keeps the invariant. -/
theorem TransferInv.step
    {e : SystemEvent}
    (h : TransferInv env chunk a b p r σ₀ σ slots)
    (hApart : a ≠ b)
    (hSize : chunk.length = btChunkSize)
    (hAllow : TransferStep a b σ e) :
    TransferInv env chunk a b p r σ₀ (step env σ e)
      (stepSlots slots e) := by
  cases e with
  | userGet _ _ _ => exact hAllow.elim
  | timeoutCheck _ => exact hAllow.elim
  | getAllTheThingz _ => exact hAllow.elim
  | peerCc x =>
      have hx : x = a := hAllow
      subst hx
      exact h.pass hApart
  | ihave _ _ _ => exact hAllow.elim
  | deliver m =>
      rcases hAllow with
        ⟨hMem, ⟨hSrc, hDest, hType⟩ | ⟨hSrc, hDest, hType⟩⟩
      · rw [stepSlots, if_pos hType]
        exact h.delivered hApart hSize hMem hSrc hDest hType
      · have hNot : typeAck ≠ typeData := by decide
        rw [stepSlots, hType, if_neg hNot]
        exact h.acknowledged hApart hMem hSrc hDest hType

end

end PeerNet

------------------------------------------------------------
-- Safety of the Transfer
------------------------------------------------------------

namespace PeerNet

open Reassembly Runs PeerNet.System

/- The event makes the receiver enter `finish_chunk`. -/
def Enters
    (env : Addr → Env)
    (b : Addr)
    (σ : System)
    (e : SystemEvent) : Prop :=
  ∃ r packets,
    .finishChunk r packets ∈
      (σ.node b).output ((step env σ e).node b)

/- The event brings the last packet that was missing. -/
def LastArrives
    (chunk : Bytes)
    (slots : List (Option Bytes))
    (e : SystemEvent) : Prop :=
  slots ≠ (chunkParts chunk).map some ∧
    stepSlots slots e = (chunkParts chunk).map some

/-
  A state of a transfer: the receiver has finished nothing,
  or the whole chunk and once; the sender has counted no
  more than is stored, and its pass takes the upload for
  finished only where all is stored; and `finish_chunk` is
  entered with the last missing packet and not before.
-/
structure TransferSafe
    (env : Addr → Env)
    (chunk : Bytes)
    (a b : Addr)
    (p : PeerRef)
    (r : ChunkRef)
    (σ₀ σ : System)
    (slots : List (Option Bytes)) : Prop where
  receiver :
    Underway chunk a p r slots (σ₀.node b) (σ.node b) ∨
      Completed (env b) chunk a p r slots (σ₀.node b)
        (σ.node b)
  acked :
    ∀ s, (σ.node a).config.sendsTo b s →
      s.lastAcked ≤ numPackets btChunkSize ∧
        (Underway chunk a p r slots (σ₀.node b)
            (σ.node b) →
          ∀ c, (σ.node b).config.chunk r = some c →
            s.lastAcked ≤ c.nextExpected - 1)
  removed :
    ∀ sv ∈ ccPass (env a) (σ.node a).reads
        (σ.node a).config.upload,
      (σ.node a).config.sendsTo b sv.1 →
        sv.2.ending = .finished →
          Completed (env b) chunk a p r slots (σ₀.node b)
            (σ.node b)
  entered :
    ∀ e, TransferStep a b σ e →
      (Enters env b σ e ↔ LastArrives chunk slots e)

section

variable {env : Addr → Env} {chunk : Bytes} {a b : Addr}
variable {p : PeerRef} {r : ChunkRef} {σ₀ σ : System}
variable {slots : List (Option Bytes)}

theorem TransferInv.acked
    (h : TransferInv env chunk a b p r σ₀ σ slots)
    {s : BtSender}
    (hs : (σ.node a).config.sendsTo b s) :
    s.lastAcked ≤ numPackets btChunkSize ∧
      (Underway chunk a p r slots (σ₀.node b)
          (σ.node b) →
        ∀ c, (σ.node b).config.chunk r = some c →
          s.lastAcked ≤ c.nextExpected - 1) := by
  have hAcked := (h.uploads s hs).acked
  have hLength := (firstGap_le_length slots).trans h.fits.1
  rw [length_parts] at hLength
  constructor
  · omega
  · intro hUnderway c hLive
    rcases hUnderway.fetch.holds with ⟨c', hLive', hHolds⟩
    have hSame : c' = c :=
      Option.some.inj (hLive'.symm.trans hLive)
    rw [← hSame, hHolds.nextExpected]
    omega

/- All acknowledged is all stored. -/
theorem TransferInv.removed
    (h : TransferInv env chunk a b p r σ₀ σ slots)
    {s : BtSender}
    (hs : (σ.node a).config.sendsTo b s)
    (hAll : s.numPackets = s.lastAcked) :
    Completed (env b) chunk a p r slots (σ₀.node b)
      (σ.node b) := by
  have hServing := h.uploads s hs
  have hAcked := hServing.acked
  rw [← hAll, hServing.count] at hAcked
  rcases h.receiver with hUnderway | hCompleted
  · exfalso
    apply hUnderway.missing
    exact eq_map_some_of_firstGap h.fits (by omega)
  · exact hCompleted

/- Once the chunk is finished, the receiver does nothing. -/
theorem TransferInv.quiet
    {e : SystemEvent}
    (h : TransferInv env chunk a b p r σ₀ σ slots)
    (hApart : a ≠ b)
    (hAllow : TransferStep a b σ e)
    (hNone : FetchNone (σ.node b).config a p) :
    ((System.step env σ e).node b).trace = (σ.node b).trace := by
  cases e with
  | userGet _ _ _ => exact hAllow.elim
  | timeoutCheck _ => exact hAllow.elim
  | getAllTheThingz _ => exact hAllow.elim
  | peerCc x =>
      have hx : x = a := hAllow
      subst hx
      rw [step_node_of_ne]
      exact hApart.symm
  | ihave _ _ _ => exact hAllow.elim
  | deliver m =>
      rcases hAllow with
        ⟨_, ⟨hSrc, hDest, hType⟩ | ⟨_, hDest, _⟩⟩
      · have hNode :=
          step_node env σ (nodeEvent_data hType)
        have hPlace : place (.deliver m) = b := hDest
        rw [hPlace, hSrc, hNone.step] at hNode
        rw [hNode]
      · have hPlace : place (.deliver m) = a := hDest
        rw [step_node_of_ne]
        rw [hPlace]
        exact hApart.symm

theorem TransferInv.entered
    {e : SystemEvent}
    (h : TransferInv env chunk a b p r σ₀ σ slots)
    (hApart : a ≠ b)
    (hSize : chunk.length = btChunkSize)
    (hAllow : TransferStep a b σ e) :
    Enters env b σ e ↔ LastArrives chunk slots e := by
  have hSilent :
      ((System.step env σ e).node b).trace = (σ.node b).trace →
        ¬ Enters env b σ e := by
    intro hSame hEnters
    rcases hEnters with ⟨s, packets, hMem⟩
    have hNone :
        (σ.node b).output
            ((System.step env σ e).node b) = [] := by
      apply Node.output_of_append
      simpa using hSame
    rw [hNone] at hMem
    cases hMem
  rcases h.receiver with hUnderway | hCompleted
  · rcases (h.step hApart hSize hAllow).receiver with
      hStill | hNow
    · -- something is still missing
      have hSame := hStill.trace.trans hUnderway.trace.symm
      constructor
      · intro hEnters
        exact absurd hEnters (hSilent hSame)
      · intro hLast
        exact absurd hLast.2 hStill.missing
    · -- the last packet
      rcases hNow.trace with ⟨rest, hTrace, _⟩
      rw [← hUnderway.trace] at hTrace
      constructor
      · intro _
        exact ⟨hUnderway.missing, hNow.full⟩
      · intro _
        refine ⟨r, .live (nodesOf (stepSlots slots e)), ?_⟩
        rw [Node.output_of_append hTrace]
        exact List.mem_cons_self
  · have hSame := h.quiet hApart hAllow hCompleted.none
    constructor
    · intro hEnters
      exact absurd hEnters (hSilent hSame)
    · intro hLast
      exact absurd hCompleted.full hLast.1

/- Every run of a transfer is safe. -/
theorem transfer_safe
    (hStart : TransferStart chunk a b p r σ₀)
    (hRun : Reaches (step env) (TransferStep a b) σ₀ σ) :
    ∃ slots,
      TransferSafe env chunk a b p r σ₀ σ slots := by
  have hInv :
      ∃ slots,
        TransferInv env chunk a b p r σ₀ σ slots := by
    apply hRun.invariant
      (I := fun τ => ∃ slots,
        TransferInv env chunk a b p r σ₀ τ slots)
    · exact ⟨[], hStart.inv⟩
    · intro τ e hτ hAllow
      rcases hτ with ⟨slots, h⟩
      exact ⟨stepSlots slots e,
        h.step hStart.apart hStart.size hAllow⟩
  rcases hInv with ⟨slots, h⟩
  refine ⟨slots, h.receiver, fun s hs => h.acked hs, ?_, ?_⟩
  · intro sv hVisit hs hEnd
    rcases mem_ccPass hVisit with ⟨_, _, hWay⟩
    exact h.removed hs (hWay.finished_acked hEnd)
  · intro e hAllow
    exact h.entered hStart.apart hStart.size hAllow

end

end PeerNet

------------------------------------------------------------
-- Two Processes
------------------------------------------------------------

namespace PeerNet

open Reassembly Runs PeerNet.System

/- The one peer, serving a chunk of zeros. -/
def servingNode : Node :=
  { onePeerNode with
    config :=
      { onePeerConfig with
        peer := fun _ => { idlePeer with addr := ⟨2, 2⟩ }
        upload :=
          [newSender (Vector.replicate 20 0)
            (some
              ((dataPackets zeroChunk btChunkSize).map some))
            (numPackets btChunkSize) 0] } }

/- It serves the process that asked it. -/
def servingSystem : System where
  node := fun x =>
    if x = ⟨1, 1⟩ then servingNode
    else { askedNode with queue := [] }
  net := []
  requests := []
  fetchTag := fun _ _ => 0
  uploadTag := fun _ _ => 0
  countedTag := fun _ _ => 0
  accepted := []

theorem servingSystem_start :
    TransferStart zeroChunk ⟨1, 1⟩ ⟨2, 2⟩ 0 0
      servingSystem where
  apart := by decide
  size := List.length_replicate
  upload := by
    intro s hs
    have hOne : s ∈ servingNode.config.upload := hs.1
    rw [servingNode, List.mem_singleton] at hOne
    rw [hOne]
    rfl
  fetch :=
    ⟨askedNode_fetch.toFetching, askedNode_fetch.holds⟩
  running := askedNode_fault
  sent := rfl
  answered := rfl
  noData := fun _ hm => by cases hm
  noAck := fun _ hm => by cases hm

/- The first packet of the chunk and its ACK. -/
def firstData : Message :=
  ⟨⟨1, 1⟩, ⟨2, 2⟩,
    dataPacket 1 (List.replicate maxDataSize 0), 0⟩

def firstAck : Message :=
  ⟨⟨2, 2⟩, ⟨1, 1⟩, ackPacket 1, 0⟩

/-
  The first packet is sent, arrives and is acknowledged, and
  the next pass sends two more.
-/
def firstEvents : List SystemEvent :=
  [.peerCc ⟨1, 1⟩, .deliver firstData, .deliver firstAck,
    .peerCc ⟨1, 1⟩]

theorem transfer_safe_zeros :
    ∃ slots,
      TransferSafe (fun _ => stillEnv) zeroChunk ⟨1, 1⟩
        ⟨2, 2⟩ 0 0 servingSystem
        (foldSteps (step fun _ => stillEnv) servingSystem
          firstEvents) slots := by
  have hRun :
      Reaches (step fun _ => stillEnv)
        (TransferStep ⟨1, 1⟩ ⟨2, 2⟩) servingSystem
        (foldSteps (step fun _ => stillEnv) servingSystem
          firstEvents) := by
    apply reaches_foldSteps
    refine ⟨rfl, ⟨?_, .inl ⟨rfl, rfl, rfl⟩⟩,
      ⟨?_, .inr ⟨rfl, rfl, rfl⟩⟩, rfl, trivial⟩
    · decide +kernel
    · decide +kernel
  exact transfer_safe servingSystem_start hRun

end PeerNet
