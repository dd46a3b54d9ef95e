import PeerNet.Packets.Cutting
import PeerNet.Packets.Fetch

/-
  When a chunk is finished.

  `add_packet` counts payload bytes and calls `finish_chunk`
  once they reach the size of a chunk. What counts are the
  first arrivals of every number: the shortest list of them
  that reaches the size decides. The packet list is without
  gaps and fills the buffer exactly if these numbers are an
  initial segment and their payloads have that size
  together, and not otherwise.

  Main declarations:
    * `firstArrivals`
    * `Filler`
    * `FillsExactly`
    * `trace_of_packets`
    * `finishes_exactly_iff`
-/

------------------------------------------------------------
-- First Arrivals
------------------------------------------------------------

namespace PeerNet

open Reassembly

/- The packets whose number is new, in order. -/
def newcomers :
    List Int → List Packet → List Packet
| _, [] => []
| had, packet :: rest =>
    if packet.seq ∈ had then
      newcomers had rest
    else
      packet :: newcomers (packet.seq :: had) rest

/- The first packet of every number. -/
def firstArrivals
    (packets : List Packet) : List Packet :=
  newcomers [] packets

/- The payload bytes of a list of packets. -/
def payloadSize
    (packets : List Packet) : Nat :=
  (packets.map fun packet => packet.payload.length).sum

/- The shortest start of the arrivals with a chunk's bytes. -/
structure Filler
    (arrivals filler : List Packet) : Prop where
  start : filler <+: arrivals
  enough : btChunkSize ≤ payloadSize filler
  needed : payloadSize filler.dropLast < btChunkSize

/-
  The arrivals that bring the bytes of a chunk bring not one
  more, and their numbers leave no gap.
-/
def FillsExactly
    (packets : List Packet) : Prop :=
  ∀ filler, Filler (firstArrivals packets) filler →
    payloadSize filler = btChunkSize ∧
      ∀ packet ∈ filler, packet.seq ≤ filler.length

theorem payloadSize_append
    (packets packets' : List Packet) :
    payloadSize (packets ++ packets') =
      payloadSize packets + payloadSize packets' := by
  simp [payloadSize]

theorem payloadSize_le_of_isPrefix
    {packets packets' : List Packet}
    (hStart : packets <+: packets') :
    payloadSize packets ≤ payloadSize packets' := by
  rcases hStart with ⟨rest, rfl⟩
  rw [payloadSize_append]
  exact Nat.le_add_right _ _

theorem payloadSize_of_forall
    {packets : List Packet}
    {size : Nat}
    (hAll :
      ∀ packet ∈ packets, packet.payload.length = size) :
    payloadSize packets = packets.length * size := by
  induction packets with
  | nil => simp [payloadSize]
  | cons packet packets ih =>
      rw [List.forall_mem_cons] at hAll
      have hTail := ih hAll.2
      unfold payloadSize at hTail ⊢
      rw [List.map_cons, List.sum_cons, hTail, hAll.1,
        List.length_cons, Nat.succ_mul, Nat.add_comm]

/- There is at most one such start. -/
theorem Filler.length_le
    {arrivals filler filler' : List Packet}
    (h : Filler arrivals filler)
    (h' : Filler arrivals filler') :
    filler'.length ≤ filler.length := by
  by_contra hNot
  have hShorter : filler.length ≤ filler'.dropLast.length := by
    rw [List.length_dropLast]
    omega
  have hWithin : filler <+: filler'.dropLast :=
    List.prefix_of_prefix_length_le h.start
      ((List.dropLast_prefix filler').trans h'.start)
      hShorter
  have hLe := payloadSize_le_of_isPrefix hWithin
  have hEnough := h.enough
  have hNeeded := h'.needed
  omega

theorem Filler.unique
    {arrivals filler filler' : List Packet}
    (h : Filler arrivals filler)
    (h' : Filler arrivals filler') :
    filler' = filler := by
  have hLength := Nat.le_antisymm (h.length_le h')
    (h'.length_le h)
  exact
    (List.prefix_of_prefix_length_le h'.start h.start
      hLength.le).eq_of_length hLength

end PeerNet

------------------------------------------------------------
-- The Buffer of the Arrivals
------------------------------------------------------------

namespace PeerNet

open Reassembly

/- The buffer holds exactly the packets that arrived. -/
structure Arrived
    (slots : List (Option Bytes))
    (got : List Packet) : Prop where
  low : ∀ packet ∈ got, initSeqnum ≤ packet.seq
  size : bufferSize slots = payloadSize got
  count : volume (fun _ => 1) slots = got.length
  filled :
    ∀ i, (content slots i).isSome ↔
      ∃ packet ∈ got, packet.slot = i
  last :
    ∀ k, slots.length ≤ k ↔
      ∀ packet ∈ got, packet.slot < k

theorem Arrived.nil :
    Arrived [] [] := by
  constructor <;> simp [payloadSize]

/- A packet with a new number arrives. -/
theorem Arrived.put
    {slots : List (Option Bytes)}
    {got : List Packet}
    (h : Arrived slots got)
    {packet : Packet}
    (hLow : initSeqnum ≤ packet.seq)
    (hNew : content slots packet.slot = none) :
    Arrived (putPacket slots packet) (got ++ [packet]) where
  low := by
    intro q hq
    rcases List.mem_append.mp hq with hOld | hLast
    · exact h.low q hOld
    · rw [List.mem_singleton.mp hLast]
      exact hLow
  size := by
    rw [bufferSize, putPacket, volume_put List.length hNew,
      payloadSize_append, ← h.size]
    simp [payloadSize]
  count := by
    rw [putPacket, volume_put _ hNew, h.count]
    simp
  filled := by
    intro i
    rw [putPacket, content_put]
    constructor
    · intro hSome
      by_cases hi : i = packet.slot
      · exact ⟨packet, by simp, hi.symm⟩
      · rw [if_neg hi] at hSome
        rcases (h.filled i).mp hSome with ⟨q, hq, hSlot⟩
        exact ⟨q, List.mem_append_left _ hq, hSlot⟩
    · intro hSlot
      by_cases hi : i = packet.slot
      · rw [if_pos hi, Option.isSome_some]
      · rw [if_neg hi, h.filled i]
        rcases hSlot with ⟨q, hq, hSlot⟩
        rcases List.mem_append.mp hq with hOld | hLast
        · exact ⟨q, hOld, hSlot⟩
        · rw [List.mem_singleton.mp hLast] at hSlot
          exact absurd hSlot.symm hi
  last := by
    intro k
    rw [putPacket, length_put, max_le_iff, h.last k,
      List.forall_mem_append, List.forall_mem_singleton,
      Nat.succ_le_iff]

/- A packet whose number was had changes nothing. -/
theorem Arrived.had
    {slots : List (Option Bytes)}
    {got : List Packet}
    (h : Arrived slots got)
    {packet : Packet}
    (hLow : initSeqnum ≤ packet.seq) :
    (content slots packet.slot).isSome ↔
      packet.seq ∈ got.map Packet.seq := by
  rw [h.filled, List.mem_map]
  constructor
  · intro hSome
    rcases hSome with ⟨q, hq, hSlot⟩
    refine ⟨q, hq, ?_⟩
    rw [Packet.seq_eq (h.low q hq), Packet.seq_eq hLow, hSlot]
  · intro hSome
    rcases hSome with ⟨q, hq, hSeq⟩
    refine ⟨q, hq, ?_⟩
    unfold Packet.slot
    rw [hSeq]

/- The numbers leave no gap exactly if the buffer has none. -/
theorem Arrived.gapless_iff
    {slots : List (Option Bytes)}
    {got : List Packet}
    (h : Arrived slots got) :
    (∀ slot ∈ slots, slot.isSome) ↔
      ∀ packet ∈ got, packet.seq ≤ got.length := by
  have hLe := count_le_length slots
  have hLast := h.last got.length
  rw [h.count] at hLe
  rw [← count_eq_length_iff, h.count]
  constructor
  · intro hCount packet hPacket
    have hSlot := hLast.mp (by omega) packet hPacket
    rw [Packet.seq_eq (h.low packet hPacket)]
    omega
  · intro hSeq
    have hShort : slots.length ≤ got.length := by
      apply hLast.mpr
      intro packet hPacket
      have hHigh := hSeq packet hPacket
      rw [Packet.seq_eq (h.low packet hPacket)] at hHigh
      omega
    omega

end PeerNet

------------------------------------------------------------
-- What `finish_chunk` Gets
------------------------------------------------------------

namespace PeerNet

open Reassembly

/-
  The list has no unset node, its payloads have the size of a
  chunk together, and the buffer that is hashed is exactly
  their bytes.
-/
def ExactFinish
    (env : Env)
    (packets : BtPackets) : Prop :=
  ∃ nodes bytes,
    packets = .live nodes ∧
      (∀ node ∈ nodes, node.recv) ∧
      dataLength nodes = btChunkSize ∧
      packetBytes nodes = .ok bytes ∧
      bytes.length = btChunkSize ∧
      writeToBuffer env nodes = .ok bytes

theorem recv_nodesFrom_iff
    (b : Nat)
    (slots : List (Option Bytes)) :
    (∀ node ∈ nodesFrom b slots, node.recv) ↔
      ∀ slot ∈ slots, slot.isSome := by
  induction slots generalizing b with
  | nil => simp [nodesFrom]
  | cons slot slots ih =>
      rw [nodesFrom, List.forall_mem_cons,
        List.forall_mem_cons, ih, recv_mk]

/- Slots that are all filled are parts. -/
theorem eq_map_some_of_isSome
    {slots : List (Option Bytes)}
    (hFilled : ∀ slot ∈ slots, slot.isSome) :
    ∃ pieces : List Bytes, slots = pieces.map some := by
  induction slots with
  | nil => exact ⟨[], rfl⟩
  | cons slot slots ih =>
      rw [List.forall_mem_cons] at hFilled
      rcases Option.isSome_iff_exists.mp hFilled.1 with
        ⟨piece, hPiece⟩
      rcases ih hFilled.2 with ⟨pieces, hPieces⟩
      exact ⟨piece :: pieces, by simp [hPiece, hPieces]⟩

theorem bufferSize_map_some
    (pieces : List Bytes) :
    bufferSize (pieces.map some) = pieces.flatten.length := by
  induction pieces with
  | nil => rfl
  | cons piece pieces ih =>
      rw [List.map_cons, bufferSize, volume_cons,
        List.flatten_cons, List.length_append, ← ih]
      rfl

/- That is, the buffer is full and has no gap. -/
theorem exactFinish_iff
    (env : Env)
    (slots : List (Option Bytes)) :
    ExactFinish env (.live (nodesOf slots)) ↔
      bufferSize slots = btChunkSize ∧
        ∀ slot ∈ slots, slot.isSome := by
  constructor
  · intro h
    rcases h with
      ⟨nodes, bytes, hNodes, hRecv, hLength, _⟩
    rw [BtPackets.live.injEq] at hNodes
    subst hNodes
    rw [dataLength_nodesFrom] at hLength
    exact ⟨hLength, (recv_nodesFrom_iff 0 slots).mp hRecv⟩
  · intro h
    rcases h with ⟨hSize, hFilled⟩
    rcases eq_map_some_of_isSome hFilled with
      ⟨pieces, hPieces⟩
    subst hPieces
    have hLength : pieces.flatten.length = btChunkSize := by
      rw [← bufferSize_map_some, hSize]
    refine ⟨_, pieces.flatten, rfl,
      (recv_nodesFrom_iff 0 _).mpr hFilled, ?_,
      packetBytes_nodesFrom 0 pieces, hLength,
      writeToBuffer_nodesOf env hLength⟩
    rw [dataLength_nodesFrom]
    exact hSize

end PeerNet

------------------------------------------------------------
-- A Run of DATA
------------------------------------------------------------

namespace PeerNet

open Reassembly Runs

section

variable {env : Env} {src : Addr} {p : PeerRef}
variable {r : ChunkRef}

/- The process after DATA packets from one address. -/
def afterData
    (env : Env)
    (src : Addr)
    (n : Node)
    (packets : List Packet) : Node :=
  foldSteps (Node.step env) n
    (packets.map (NodeEvent.data src))

/- Without a fetch no packet does anything. -/
theorem FetchNone.afterData
    {n : Node}
    (h : FetchNone n.config src p)
    (packets : List Packet) :
    afterData env src n packets = n := by
  induction packets with
  | nil => rfl
  | cons packet packets ih =>
      unfold PeerNet.afterData foldSteps at ih ⊢
      rw [List.map_cons, List.foldl_cons, h.step, ih]

/-
  Packets of a fetch: either the arrivals are too short for a
  chunk and none is finished, or the chunk is finished once,
  with the buffer of the arrivals that were enough.
-/
theorem trace_of_packets
    (env : Env)
    (had : List Int)
    {n : Node}
    {slots : List (Option Bytes)}
    {got packets : List Packet}
    (hFetch : FetchOf n.config src p r slots)
    (hRun : n.fault = none)
    (hArrived : Arrived slots got)
    (hHad : ∀ s, s ∈ had ↔ s ∈ got.map Packet.seq)
    (hShort : payloadSize got < btChunkSize)
    (hAccept : ∀ packet ∈ packets, Acceptable packet) :
    (payloadSize (got ++ newcomers had packets) <
        btChunkSize ∧
      (afterData env src n packets).trace = n.trace) ∨
    ∃ filler slots' rest,
      Filler (got ++ newcomers had packets) filler ∧
        Arrived slots' filler ∧
        (afterData env src n packets).trace =
          n.trace ++
            .finishChunk r (.live (nodesOf slots')) ::
              rest ∧
        Unfinished rest := by
  induction packets generalizing n slots got had with
  | nil =>
      left
      simpa [newcomers, afterData, foldSteps] using hShort
  | cons packet packets ih =>
      rw [List.forall_mem_cons] at hAccept
      rcases hAccept with ⟨hPacket, hRest⟩
      have hAfter :
          afterData env src n (packet :: packets) =
            afterData env src
              (n.step env (.data src packet)) packets :=
        rfl
      have hStep := hFetch.step env hRun hPacket
      rw [hAfter]
      by_cases hOld : packet.seq ∈ had
      · -- a duplicate
        have hFilled :=
          (hArrived.had hPacket.low).mpr
            ((hHad _).mp hOld)
        rw [putPacket_of_content hFilled, hArrived.size]
          at hStep
        rcases hStep with ⟨_, hKept⟩ | ⟨hFull, _⟩
        · have hNext := ih _ hKept.fetch hKept.fault hArrived
            hHad hShort hRest
          simpa [newcomers, hOld, hKept.trace] using hNext
        · omega
      · -- a new number
        have hEmpty :
            content slots packet.slot = none := by
          rw [← Option.not_isSome_iff_eq_none,
            hArrived.had hPacket.low, ← hHad]
          exact hOld
        have hArrived' := hArrived.put hPacket.low hEmpty
        have hNewHad :
            ∀ s, s ∈ packet.seq :: had ↔
              s ∈ (got ++ [packet]).map Packet.seq := by
          intro s
          simp [hHad s, or_comm]
        have hNewcomers :
            got ++ newcomers had (packet :: packets) =
              (got ++ [packet]) ++
                newcomers (packet.seq :: had) packets := by
          simp [newcomers, hOld]
        rw [hNewcomers]
        rw [hArrived'.size] at hStep
        rcases hStep with ⟨hShort', hKept⟩ | ⟨hFull, hEnded⟩
        · have hNext := ih _ hKept.fetch hKept.fault hArrived'
            hNewHad hShort' hRest
          simpa [hKept.trace] using hNext
        · -- the last one
          right
          rcases hEnded.trace with ⟨rest, hTrace, hNone⟩
          refine ⟨got ++ [packet], _, rest, ?_, hArrived', ?_,
            hNone⟩
          · exact
              { start := List.prefix_append _ _
                enough := hFull
                needed := by simpa using hShort }
          · rw [hEnded.none.afterData, hTrace]

/- Every chunk that DATA packets finish is filled exactly. -/
def FinishesExactly
    (env : Env)
    (src : Addr)
    (n : Node)
    (packets : List Packet) : Prop :=
  ∀ s list,
    .finishChunk s list ∈
        n.output (afterData env src n packets) →
      ExactFinish env list

/-
  The chunks finished in a run of DATA for a fresh chunk are
  filled exactly and without gaps if and only if the packets
  fill a chunk exactly.
-/
theorem finishes_exactly_iff
    {n : Node}
    {packets : List Packet}
    (hFresh : FetchOf n.config src p r [])
    (hRun : n.fault = none)
    (hAccept : ∀ packet ∈ packets, Acceptable packet) :
    FinishesExactly env src n packets ↔
      FillsExactly packets := by
  have hCases :=
    trace_of_packets env [] hFresh hRun
      .nil (by simp) (by simp [payloadSize]) hAccept
  rw [List.nil_append] at hCases
  rcases hCases with
    ⟨hShort, hTrace⟩ |
    ⟨filler, slots, rest, hFiller, hArrived, hTrace, hNone⟩
  · -- no chunk is finished
    have hOutput :
        n.output (afterData env src n packets) = [] := by
      apply Node.output_of_append
      simpa using hTrace
    constructor
    · intro _ filler hFiller
      have hLe := payloadSize_le_of_isPrefix hFiller.start
      have hEnough := hFiller.enough
      unfold firstArrivals at hLe
      omega
    · intro _ s list hMem
      rw [hOutput] at hMem
      cases hMem
  · -- one chunk is finished
    have hOutput := Node.output_of_append hTrace
    have hExact :
        ExactFinish env (.live (nodesOf slots)) ↔
          payloadSize filler = btChunkSize ∧
            ∀ packet ∈ filler,
              packet.seq ≤ filler.length := by
      rw [exactFinish_iff, hArrived.size,
        hArrived.gapless_iff]
    constructor
    · intro hAll filler' hFiller'
      rw [hFiller.unique hFiller']
      apply hExact.mp
      apply hAll r
      rw [hOutput]
      exact List.mem_cons_self
    · intro hFills s list hMem
      rw [hOutput] at hMem
      rcases List.mem_cons.mp hMem with hHead | hTail
      · cases hHead
        exact hExact.mpr (hFills filler hFiller)
      · exact absurd hTail (hNone s list)

end

end PeerNet

------------------------------------------------------------
-- Packets in Order
------------------------------------------------------------

namespace PeerNet

open Reassembly Runs

/- Packets with different numbers all count. -/
theorem newcomers_of_nodup
    {had : List Int}
    {packets : List Packet}
    (hNodup : (packets.map Packet.seq).Nodup)
    (hNew : ∀ packet ∈ packets, packet.seq ∉ had) :
    newcomers had packets = packets := by
  induction packets generalizing had with
  | nil => rfl
  | cons packet packets ih =>
      rw [List.map_cons, List.nodup_cons] at hNodup
      rw [List.forall_mem_cons] at hNew
      have hTail : ∀ q ∈ packets,
          q.seq ∉ packet.seq :: had := by
        intro q hq hMem
        rcases List.mem_cons.mp hMem with hSame | hOld
        · apply hNodup.1
          rw [← hSame]
          exact List.mem_map_of_mem hq
        · exact hNew.2 q hq hOld
      rw [newcomers, if_neg hNew.1, ih hNodup.2 hTail]

/- What the numbered packets of some parts are. -/
structure InOrder
    (pieces : List Bytes) : Prop where
  few : (pieces.length : Int) ≤ maxSeqnum
  small : ∀ piece ∈ pieces, piece.length ≤ maxDataSize

section

variable {pieces : List Bytes}

theorem InOrder.acceptable
    (h : InOrder pieces)
    {packet : Packet}
    (hPacket : packet ∈ numbered 1 pieces) :
    Acceptable packet ∧
      packet.payload.length ≤ maxDataSize := by
  rcases mem_numbered hPacket with ⟨k, part, hPart, rfl⟩
  have hFew := h.few
  have hSmall := h.small part (List.mem_of_getElem? hPart)
  have hLt := (List.getElem?_eq_some_iff.mp hPart).1
  rw [dataPacket_payload hSmall]
  refine ⟨⟨?_, ?_, dataPacket_whole hSmall⟩, hSmall⟩
  · rw [dataPacket_seq (by omega) (by omega)]
    have hInit : initSeqnum = 1 := rfl
    omega
  · rw [dataPacket_seq (by omega) (by omega)]
    omega

theorem InOrder.firstArrivals
    (h : InOrder pieces) :
    firstArrivals (numbered 1 pieces) =
      numbered 1 pieces := by
  have hFew := h.few
  apply newcomers_of_nodup
  · apply nodup_numbered_seq
    · omega
    · omega
  · intro packet _ hMem
    cases hMem

theorem InOrder.payloadSize
    (h : ∀ piece ∈ pieces, piece.length ≤ maxDataSize)
    (i : Int) :
    payloadSize (numbered i pieces) =
      (pieces.map List.length).sum := by
  induction pieces generalizing i with
  | nil => rfl
  | cons piece pieces ih =>
      rw [List.forall_mem_cons] at h
      have hTail := ih h.2 (i + 1)
      unfold PeerNet.payloadSize at hTail ⊢
      rw [numbered, List.map_cons, List.sum_cons,
        List.map_cons, List.sum_cons, hTail,
        dataPacket_payload h.1]

/- The packets of one chunk, in order, fill it exactly. -/
theorem InOrder.fillsExactly
    (h : InOrder pieces)
    (hSize : (pieces.map List.length).sum = btChunkSize) :
    FillsExactly (numbered 1 pieces) := by
  intro filler hFiller
  rw [h.firstArrivals] at hFiller
  have hLe := payloadSize_le_of_isPrefix hFiller.start
  rw [InOrder.payloadSize h.small, hSize] at hLe
  refine ⟨Nat.le_antisymm hLe hFiller.enough, ?_⟩
  intro packet hPacket
  rcases List.mem_iff_getElem?.mp hPacket with ⟨k, hk⟩
  have hLt := (List.getElem?_eq_some_iff.mp hk).1
  have hFew := h.few
  have hAll : filler.length ≤ pieces.length := by
    rw [← length_numbered 1 pieces]
    exact hFiller.start.length_le
  rcases hFiller.start with ⟨rest, hSplit⟩
  have hAt : (numbered 1 pieces)[k]? = some packet := by
    rw [← hSplit, List.getElem?_append_left hLt, hk]
  rw [getElem?_numbered] at hAt
  rcases Option.map_eq_some_iff.mp hAt with
    ⟨part, _, rfl⟩
  rw [dataPacket_seq (by omega) (by omega)]
  omega

end

/- A chunk of zeros, as a sender cuts it. -/
theorem finishes_exactly_zeros :
    FinishesExactly stillEnv ⟨1, 1⟩ askedNode
      (dataPackets (List.replicate btChunkSize 0)
        btChunkSize) := by
  have hRead :
      btChunkSize ≤
        (List.replicate btChunkSize (0 : UInt8)).length := by
    rw [List.length_replicate]
  have hOrder :
      InOrder
        (parts (List.replicate btChunkSize 0)
          btChunkSize) := by
    constructor
    · rw [length_parts]
      decide
    · intro piece hPiece
      exact length_le_of_mem_parts hPiece
  rw [dataPackets_eq hRead]
  exact
    (finishes_exactly_iff askedNode_fetch askedNode_fault
      (fun packet hPacket =>
        (hOrder.acceptable hPacket).1)).mpr
      (hOrder.fillsExactly (sum_length_parts hRead))

/- Full packets only, until they are enough for a chunk. -/
def fullParts : List Bytes :=
  List.replicate 354 (List.replicate maxDataSize 0)

theorem fullParts_inOrder :
    InOrder fullParts where
  few := by
    rw [fullParts, List.length_replicate]
    decide
  small := by
    intro piece hPiece
    rw [List.eq_of_mem_replicate hPiece,
      List.length_replicate]

theorem fullParts_payload
    {packet : Packet}
    (hPacket : packet ∈ numbered 1 fullParts) :
    packet.payload.length = maxDataSize := by
  rcases mem_numbered hPacket with ⟨k, part, hPart, rfl⟩
  have hMem := List.mem_of_getElem? hPart
  rw [dataPacket_payload (fullParts_inOrder.small part hMem),
    List.eq_of_mem_replicate hMem, List.length_replicate]

/-
  354 packets of 1484 bytes bring more than a chunk: their
  sizes never add up to one.
-/
theorem finishes_inexactly_full :
    ¬ ∀ (env : Env) (src : Addr) (p : PeerRef)
        (r : ChunkRef) (n : Node) (packets : List Packet),
      FetchOf n.config src p r [] → n.fault = none →
        (∀ packet ∈ packets, Acceptable packet ∧
          packet.payload.length ≤ maxDataSize) →
          FinishesExactly env src n packets := by
  intro hClaim
  have hExact :=
    hClaim stillEnv ⟨1, 1⟩ 0 0 askedNode
      (numbered 1 fullParts) askedNode_fetch
      askedNode_fault
      (fun packet => fullParts_inOrder.acceptable)
  have hCases :=
    trace_of_packets stillEnv []
      askedNode_fetch askedNode_fault .nil (by simp)
      (by simp [payloadSize])
      (fun packet hPacket =>
        (fullParts_inOrder.acceptable hPacket).1)
  have hArrivals := fullParts_inOrder.firstArrivals
  unfold firstArrivals at hArrivals
  rw [List.nil_append, hArrivals] at hCases
  rcases hCases with
    ⟨hShort, _⟩ |
    ⟨filler, slots, rest, hFiller, hArrived, hTrace, _⟩
  · -- 354 packets are enough
    rw [InOrder.payloadSize fullParts_inOrder.small,
      fullParts, List.map_replicate, List.sum_replicate,
      List.length_replicate] at hShort
    revert hShort
    decide
  · -- and no number of them makes up a chunk
    have hFinish : ExactFinish stillEnv
        (.live (nodesOf slots)) := by
      apply hExact 0
      rw [Node.output_of_append hTrace]
      exact List.mem_cons_self
    have hSize := ((exactFinish_iff _ _).mp hFinish).1
    rw [hArrived.size] at hSize
    have hMultiple : payloadSize filler =
        filler.length * maxDataSize := by
      apply payloadSize_of_forall
      intro packet hPacket
      exact fullParts_payload (hFiller.start.mem hPacket)
    have hPart : maxDataSize = 1484 := rfl
    have hChunk : btChunkSize = 524288 := rfl
    rw [hMultiple, hPart, hChunk] at hSize
    omega

end PeerNet
