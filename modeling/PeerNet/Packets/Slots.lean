import PeerNet.Lib.Reassembly
import PeerNet.Model.PacketList
import Mathlib.Tactic.Ring

/-
  The packet list of a chunk is a reassembly buffer.

  `nodesFrom b slots` is the packet list whose nodes are
  numbered `b + 1`, `b + 2`, … and hold the slots. On such a
  list the search loop and the appending loop of
  `add_packet_list` are one `put`, its last loop measures the
  filled prefix, and `write_to_buffer` succeeds exactly on a
  list without gaps.

  Main declarations:
    * `nodesOf`
    * `storePacket_nodesOf`
    * `lastGottenUpto_nodesFrom`
    * `Assembled.add`
    * `dataLength_nodesFrom`
-/

------------------------------------------------------------
-- Packet Lists of Buffers
------------------------------------------------------------

namespace PeerNet

open Reassembly

/- The nodes for slots, numbered from `b + 1`. -/
def nodesFrom :
    Nat → List (Option Bytes) → List BtPacket
| _, [] => []
| b, slot :: slots =>
    { seqNum := b + 1, data := slot } ::
      nodesFrom (b + 1) slots

/- The packet list of a whole buffer. -/
abbrev nodesOf
    (slots : List (Option Bytes)) : List BtPacket :=
  nodesFrom 0 slots

@[simp] theorem recv_mk
    (seqNum : Int)
    (slot : Option Bytes) :
    BtPacket.recv ⟨seqNum, slot⟩ = slot.isSome :=
  rfl

theorem nodesFrom_append
    (b : Nat)
    (slots slots' : List (Option Bytes)) :
    nodesFrom b (slots ++ slots') =
      nodesFrom b slots ++
        nodesFrom (b + slots.length) slots' := by
  induction slots generalizing b with
  | nil => simp [nodesFrom]
  | cons slot slots ih =>
      simp only [List.cons_append, nodesFrom, ih,
        List.length_cons]
      congr 3
      omega

theorem length_nodesFrom
    (b : Nat)
    (slots : List (Option Bytes)) :
    (nodesFrom b slots).length = slots.length := by
  induction slots generalizing b with
  | nil => rfl
  | cons slot slots ih => simp [nodesFrom, ih]

/- Behind the last slot, storing appends. -/
theorem put_of_length_le
    {slots : List (Option Bytes)}
    {i : Nat}
    (hi : slots.length ≤ i)
    (data : Bytes) :
    put slots i data =
      slots ++ put [] (i - slots.length) data := by
  induction slots generalizing i with
  | nil => simp
  | cons slot slots ih =>
      cases i with
      | zero => simp at hi
      | succ i =>
          have hTail := ih (i := i) (by simpa using hi)
          cases slot <;> simp [put, hTail]

/- Every node's payload is a slot's. -/
theorem mem_nodesFrom
    {b : Nat}
    {slots : List (Option Bytes)}
    {node : BtPacket}
    (hNode : node ∈ nodesFrom b slots) :
    ∃ i, i < slots.length ∧
      node.seqNum = (b + i + 1 : Nat) ∧
      node.data = content slots i := by
  induction slots generalizing b with
  | nil => simp [nodesFrom] at hNode
  | cons slot slots ih =>
      rcases List.mem_cons.mp hNode with rfl | hTail
      · exact ⟨0, by simp, by simp, rfl⟩
      · rcases ih hTail with ⟨i, hi, hSeq, hData⟩
        refine ⟨i + 1, by simpa using hi, ?_, hData⟩
        rw [hSeq]
        push_cast
        ring

end PeerNet

------------------------------------------------------------
-- Adding a Packet
------------------------------------------------------------

namespace PeerNet

open Reassembly

/- The search loop on a numbered list. -/
theorem searchPackets_nodesFrom
    (b i : Nat)
    (lastSeq : Int)
    (hLast : lastSeq = b)
    (slots : List (Option Bytes))
    (data : Bytes) :
    searchPackets ((b + i + 1 : Nat) : Int) data lastSeq
        (nodesFrom b slots) =
      if (content slots i).isSome then
        .duplicate
      else if i < slots.length then
        .filled (nodesFrom b (put slots i data))
      else
        .absent ((b + slots.length : Nat) : Int) := by
  induction slots generalizing b i lastSeq with
  | nil => simp [nodesFrom, searchPackets, hLast]
  | cons slot slots ih =>
      cases i with
      | zero =>
          -- the node itself
          cases slot with
          | none =>
              simp [nodesFrom, searchPackets, content, put]
          | some d =>
              simp [nodesFrom, searchPackets, content]
      | succ i =>
          have hNe :
              ¬ ((b : Int) + 1 = ((b + (i + 1) + 1 : Nat) : Int)) := by
            omega
          have hNext :
              ((b + (i + 1) + 1 : Nat) : Int) =
                ((b + 1 + i + 1 : Nat) : Int) := by
            omega
          have hTail :=
            ih (b + 1) i ((b : Int) + 1) (by push_cast; rfl)
          simp only [nodesFrom, searchPackets, hNe,
            if_false]
          rw [hNext, hTail]
          by_cases hSome : (content slots i).isSome
          · simp [content, hSome]
          · by_cases hLt : i < slots.length
            · cases slot <;>
                simp [content, hSome, hLt, put, nodesFrom]
            · simp [content, hSome, hLt, add_comm,
                add_left_comm]

/- The nodes the appending loop makes. -/
theorem newPackets_eq
    (b i : Nat)
    (data : Bytes) :
    newPackets b ((b + i + 1 : Nat) : Int) data =
      nodesFrom b (put [] i data) := by
  have hCount :
      (((b + i + 1 : Nat) : Int) - (b : Int)).toNat =
        i + 1 := by
    omega
  unfold newPackets
  rw [hCount]
  clear hCount
  induction i generalizing b with
  | zero => simp [put, nodesFrom]
  | succ i ih =>
      have hTail := ih (b + 1)
      rw [List.range_succ_eq_map]
      simp only [List.map_cons, List.map_map, put,
        nodesFrom]
      rw [← hTail]
      congr 1
      · simp
        omega
      · apply List.map_congr_left
        intro k _
        simp only [Function.comp]
        congr 1
        · push_cast
          ring
        · congr 1
          push_cast
          ring_nf

/- `add_packet_list` on a buffer is one `put`. -/
theorem storePacket_nodesOf
    (slots : List (Option Bytes))
    (i : Nat)
    (data : Bytes) :
    storePacket (nodesOf slots) ((i + 1 : Nat) : Int) data =
      if (content slots i).isSome then none
      else some (nodesOf (put slots i data)) := by
  have hSearch :=
    searchPackets_nodesFrom 0 i 0 rfl slots data
  rw [Nat.zero_add] at hSearch
  unfold storePacket
  rw [hSearch]
  by_cases hSome : (content slots i).isSome
  · simp [hSome]
  · by_cases hLt : i < slots.length
    · simp [hSome, hLt]
    · have hLe : slots.length ≤ i := by omega
      have hNew :=
        newPackets_eq slots.length (i - slots.length) data
      have hIndex :
          slots.length + (i - slots.length) + 1 = i + 1 := by
        omega
      rw [hIndex] at hNew
      have hAppend :
          nodesOf (put slots i data) =
            nodesOf slots ++
              newPackets (0 + slots.length : Nat)
                ((i + 1 : Nat) : Int) data := by
        rw [put_of_length_le hLe]
        unfold nodesOf
        rw [nodesFrom_append, Nat.zero_add, hNew]
      simp [hSome, hLt, hAppend]

/- The last loop measures the filled prefix. -/
theorem lastGottenUpto_nodesFrom
    (b : Nat)
    (slots : List (Option Bytes)) :
    lastGottenUpto b (nodesFrom b slots) =
      ((b + firstGap slots : Nat) : Int) := by
  induction slots generalizing b with
  | nil => simp [nodesFrom, lastGottenUpto, firstGap]
  | cons slot slots ih =>
      cases slot with
      | none =>
          simp [nodesFrom, lastGottenUpto, firstGap]
      | some d =>
          have hTail := ih (b + 1)
          push_cast at hTail
          simp [nodesFrom, lastGottenUpto, firstGap, hTail]
          ring

end PeerNet

------------------------------------------------------------
-- The Chunk of a Buffer
------------------------------------------------------------

namespace PeerNet

open Reassembly

/- The fields of a chunk that `add_packet_list` keeps. -/
structure Assembled
    (chunk : BtChunk)
    (slots : List (Option Bytes)) : Prop where
  packets : chunk.packets = .live (nodesOf slots)
  totalData : chunk.totalData = volume List.length slots
  nextExpected :
    chunk.nextExpected = (firstGap slots : Nat) + 1

/- A call of `add_packet_list` is one `put`. -/
theorem Assembled.add
    {chunk : BtChunk}
    {slots : List (Option Bytes)}
    (h : Assembled chunk slots)
    (i : Nat)
    (data : Bytes) :
    Assembled
      (addPacketList chunk (nodesOf slots)
        ((i + 1 : Nat) : Int) data)
      (put slots i data) := by
  have hStore := storePacket_nodesOf slots i data
  unfold addPacketList
  by_cases hFilled : (content slots i).isSome
  · -- had already: the call returns
    rw [if_pos hFilled] at hStore
    rw [put_of_content hFilled]
    simp only [hStore]
    exact h
  · rw [if_neg hFilled] at hStore
    have hEmpty : content slots i = none := by
      simpa using hFilled
    have hPrefix := lastGottenUpto_nodesFrom 0
      (put slots i data)
    rw [Nat.zero_add] at hPrefix
    simp only [hStore]
    constructor
    · rfl
    · dsimp only
      rw [volume_put List.length hEmpty, h.totalData]
    · simpa using hPrefix

end PeerNet

------------------------------------------------------------
-- Writing the List
------------------------------------------------------------

namespace PeerNet

open Reassembly

theorem dataLength_nodesFrom
    (b : Nat)
    (slots : List (Option Bytes)) :
    dataLength (nodesFrom b slots) =
      volume List.length slots := by
  induction slots generalizing b with
  | nil => rfl
  | cons slot slots ih =>
      have hTail := ih (b + 1)
      unfold dataLength at hTail ⊢
      cases slot <;> simp [nodesFrom, hTail]

/- A list without gaps is written in order. -/
theorem packetBytes_nodesFrom
    (b : Nat)
    (parts : List Bytes) :
    packetBytes (nodesFrom b (parts.map some)) =
      .ok parts.flatten := by
  induction parts generalizing b with
  | nil => rfl
  | cons part parts ih =>
      simp [nodesFrom, packetBytes, ih]

/- Bytes that fill an array leave none of it unset. -/
theorem fill_full
    (env : Env)
    {size : Nat}
    {bytes : Bytes}
    (hFull : bytes.length = size) :
    env.fill size bytes = bytes := by
  simp [Env.fill, hFull]

/- Parts of the size of a chunk fill the buffer exactly. -/
theorem writeToBuffer_nodesOf
    (env : Env)
    {parts : List Bytes}
    (hSize : parts.flatten.length = btChunkSize) :
    writeToBuffer env (nodesOf (parts.map some)) =
      .ok parts.flatten := by
  unfold writeToBuffer
  rw [nodesOf, packetBytes_nodesFrom]
  dsimp only
  rw [if_pos hSize.le, fill_full env hSize]

end PeerNet
