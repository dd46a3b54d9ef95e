import PeerNet.Packets.Slots
import Mathlib.Order.Bounds.Defs

/-
  The packet list of a chunk, whatever arrives.

  A chunk starts with an empty list. After any calls of
  `add_packet_list`, in any order and with repetitions, its
  nodes are numbered up to the largest number that came, a
  node holds the first payload that came for its number, and
  the two counters are the bytes that are held and the first
  number that is missing.

  Main declarations:
    * `BtChunk.add`
    * `Listed`
    * `listed_of_calls`
-/

------------------------------------------------------------
-- Calls of `add_packet_list`
------------------------------------------------------------

namespace PeerNet

open Reassembly

/- What a call is given. -/
structure PacketCall where
  seqNum : Int
  data : Bytes

/- The call on a chunk, whose nodes are not freed. -/
def BtChunk.add
    (chunk : BtChunk)
    (call : PacketCall) : BtChunk :=
  match chunk.packets with
  | .freed => chunk
  | .live nodes =>
      addPacketList chunk nodes call.seqNum call.data

/- A chunk before its first packet. -/
structure FreshChunk
    (chunk : BtChunk) : Prop where
  packets : chunk.packets = .live []
  totalData : chunk.totalData = 0
  nextExpected : chunk.nextExpected = initSeqnum

/- The payload of the first call with a number. -/
def firstPayload
    (calls : List PacketCall)
    (seqNum : Int) : Option Bytes :=
  (calls.find? fun call => call.seqNum = seqNum).map
    PacketCall.data

/- Some call had the number. -/
def Seen
    (calls : List PacketCall)
    (seqNum : Int) : Prop :=
  ∃ call ∈ calls, call.seqNum = seqNum

/- The chunk after the calls; `m` is the largest number. -/
structure Listed
    (calls : List PacketCall)
    (chunk : BtChunk)
    (m : Nat)
    (nodes : List BtPacket) : Prop where
  packets : chunk.packets = .live nodes
  numbers :
    nodes.map BtPacket.seqNum =
      (List.range m).map fun k : Nat => (k : Int) + 1
  bounded : ∀ call ∈ calls, call.seqNum ≤ m
  largest : m = 0 ∨ Seen calls m
  recv :
    ∀ node ∈ nodes,
      node.recv = true ↔ Seen calls node.seqNum
  data :
    ∀ node ∈ nodes,
      node.data = firstPayload calls node.seqNum
  totalData :
    chunk.totalData =
      ((List.range m).map fun k : Nat =>
        (firstPayload calls (k + 1)).elim 0
          List.length).sum
  nextExpected :
    IsLeast {i : Int | 1 ≤ i ∧ ¬ Seen calls i}
      chunk.nextExpected

end PeerNet

------------------------------------------------------------
-- The Buffer of the Calls
------------------------------------------------------------

namespace PeerNet

open Reassembly

/- The slot and the payload of a call. -/
def PacketCall.part
    (call : PacketCall) : Nat × Bytes :=
  ((call.seqNum - 1).toNat, call.data)

section

variable {calls : List PacketCall} {chunk : BtChunk}

theorem FreshChunk.assembled
    (h : FreshChunk chunk) :
    Assembled chunk [] where
  packets := h.packets
  totalData := h.totalData
  nextExpected := h.nextExpected

/- Every call is a put, into the buffer so far. -/
theorem Assembled.addAll
    {slots : List (Option Bytes)}
    (h : Assembled chunk slots)
    (hLow : ∀ call ∈ calls, initSeqnum ≤ call.seqNum) :
    Assembled (calls.foldl BtChunk.add chunk)
      (putAll slots (calls.map PacketCall.part)) := by
  induction calls generalizing chunk slots with
  | nil => exact h
  | cons call calls ih =>
      rw [List.forall_mem_cons] at hLow
      have hSeq :
          call.seqNum = ((call.part.1 + 1 : Nat) : Int) := by
        have hPos : 1 ≤ call.seqNum := hLow.1
        unfold PacketCall.part
        dsimp only
        omega
      have hFirst :
          Assembled (chunk.add call)
            (put slots call.part.1 call.part.2) := by
        unfold BtChunk.add
        rw [h.packets, hSeq]
        exact h.add call.part.1 call.data
      exact ih hFirst hLow.2

/- The first part for a slot is the first call's. -/
theorem firstPart_parts
    (hLow : ∀ call ∈ calls, initSeqnum ≤ call.seqNum)
    (k : Nat) :
    firstPart (calls.map PacketCall.part) k =
      firstPayload calls (k + 1) := by
  induction calls with
  | nil => rfl
  | cons call calls ih =>
      rw [List.forall_mem_cons] at hLow
      have hPos : 1 ≤ call.seqNum := hLow.1
      have hTail := ih hLow.2
      unfold firstPart firstPayload at hTail ⊢
      rw [List.map_cons, List.find?_cons, List.find?_cons]
      by_cases hk : call.seqNum = (k : Int) + 1
      · simp [hk, PacketCall.part]
      · have hSlot : call.part.1 ≠ k := by
          unfold PacketCall.part
          dsimp only
          omega
        simp only [hk, hSlot, decide_false]
        exact hTail

theorem firstPayload_isSome_iff
    (calls : List PacketCall)
    (seqNum : Int) :
    (firstPayload calls seqNum).isSome ↔
      Seen calls seqNum := by
  simp [firstPayload, Seen]

/- The numbers of a buffer's nodes. -/
theorem map_seqNum_nodesFrom
    (b : Nat)
    (slots : List (Option Bytes)) :
    (nodesFrom b slots).map BtPacket.seqNum =
      (List.range slots.length).map fun k : Nat =>
        ((b + k : Nat) : Int) + 1 := by
  induction slots generalizing b with
  | nil => rfl
  | cons slot slots ih =>
      rw [nodesFrom, List.map_cons, ih, List.length_cons,
        List.range_succ_eq_map, List.map_cons, List.map_map]
      congr 1
      apply List.map_congr_left
      intro k _
      simp only [Function.comp]
      push_cast
      ring

end

end PeerNet

------------------------------------------------------------
-- The Invariant
------------------------------------------------------------

namespace PeerNet

open Reassembly

/-
  After any calls on a fresh chunk the list is that of the
  first arrivals.
-/
theorem listed_of_calls
    (chunk : BtChunk)
    (hFresh : FreshChunk chunk)
    (calls : List PacketCall)
    (hLow : ∀ call ∈ calls, initSeqnum ≤ call.seqNum) :
    ∃ m nodes,
      Listed calls (calls.foldl BtChunk.add chunk) m
        nodes := by
  have hAll := hFresh.assembled.addAll hLow
  generalize hSlots :
    putAll [] (calls.map PacketCall.part) = slots at hAll
  have hContent : ∀ k : Nat,
      content slots k = firstPayload calls (k + 1) := by
    intro k
    rw [← hSlots, content_putAll, content_nil, Option.none_or]
    exact firstPart_parts hLow k
  have hSeen : ∀ k : Nat,
      (content slots k).isSome ↔ Seen calls (k + 1) := by
    intro k
    rw [hContent]
    exact firstPayload_isSome_iff calls _
  have hNode : ∀ node ∈ nodesOf slots,
      node.data = firstPayload calls node.seqNum := by
    intro node hMem
    rcases mem_nodesFrom hMem with ⟨k, _, hSeq, hData⟩
    rw [hData, hContent, hSeq]
    push_cast
    rw [zero_add]
  refine ⟨slots.length, nodesOf slots, ?_⟩
  constructor
  · exact hAll.packets
  · rw [map_seqNum_nodesFrom]
    simp only [Nat.zero_add]
  · intro call hMem
    have hPart : call.part ∈ calls.map PacketCall.part :=
      List.mem_map_of_mem hMem
    have hLt := lt_length_putAll [] hPart
    rw [hSlots] at hLt
    unfold PacketCall.part at hLt
    dsimp only at hLt
    omega
  · rcases length_putAll_cases [] (calls.map PacketCall.part)
      with hNone | hSome
    · left
      rw [hSlots] at hNone
      exact hNone
    · right
      rcases hSome with ⟨part, hPart, hIs⟩
      rcases List.mem_map.mp hPart with ⟨call, hMem, rfl⟩
      have hPos : 1 ≤ call.seqNum := hLow call hMem
      rw [hSlots] at hIs
      refine ⟨call, hMem, ?_⟩
      rw [hIs]
      unfold PacketCall.part
      dsimp only
      omega
  · intro node hMem
    unfold BtPacket.recv
    rw [hNode node hMem]
    exact firstPayload_isSome_iff calls _
  · exact hNode
  · rw [hAll.totalData, volume_eq_sum]
    simp only [hContent]
  · rw [hAll.nextExpected]
    constructor
    · refine ⟨by omega, ?_⟩
      intro hSome
      have hGap := (hSeen _).mpr hSome
      rw [content_firstGap] at hGap
      cases hGap
    · rintro i ⟨hPos, hMissing⟩
      by_contra hLess
      apply hMissing
      have hIndex : i = ((i - 1).toNat : Int) + 1 := by
        omega
      rw [hIndex, ← hSeen]
      apply isSome_of_lt_firstGap
      omega

/- The order of the repository's own test. -/
def testCalls : List PacketCall :=
  [⟨1, [1]⟩, ⟨2, [2]⟩, ⟨4, [4]⟩, ⟨5, [5]⟩, ⟨2, [9]⟩,
    ⟨4, [9]⟩, ⟨3, [3]⟩]

def testChunk : BtChunk where
  id := 0
  hash := Vector.replicate 20 0
  nextExpected := initSeqnum
  downloaded := false
  totalData := 0
  peer := none
  peers := []
  packets := .live []

theorem listed_of_calls_test :
    ∃ m nodes,
      Listed testCalls
        (testCalls.foldl BtChunk.add testChunk) m nodes :=
  listed_of_calls testChunk ⟨rfl, rfl, rfl⟩ testCalls
    (by decide)

end PeerNet
