import Mathlib.Data.List.Nodup
import PeerNet.Lib.Reassembly
import PeerNet.Model.Sender
import PeerNet.Receiver.Moves

/-
  The packets of a chunk.

  `send_data` cuts what it read of a chunk into parts of
  `MAX_DATA_SIZE` bytes, the last one shorter, and numbers
  them from 1. A receiver takes from such a packet exactly
  its number and its part.

  Main declarations:
    * `dataPacket`
    * `parts`
    * `dataPackets_eq`
    * `cutPackets_all`
-/

------------------------------------------------------------
-- One Packet
------------------------------------------------------------

namespace PeerNet

/- DATA number `i` with a payload. -/
def dataPacket
    (i : Int)
    (payload : Bytes) : Packet where
  header :=
    initPacketHead typeData 16 (16 + payload.length) i 0
  buf := payload

/- A number that fits is sent as it is. -/
theorem toNat_ofInt
    {i : Int}
    (hLow : 0 ≤ i)
    (hHigh : i < 2 ^ 32) :
    (UInt32.ofInt i).toNat = i.toNat := by
  unfold UInt32.ofInt
  rw [UInt32.toNat_ofNat', Int.emod_eq_of_lt hLow hHigh]
  apply Nat.mod_eq_of_lt
  omega

/- And an `int` that is sent is read as it is. -/
theorem toInt32_ofInt
    {i : Int}
    (hLow : 0 ≤ i)
    (hHigh : i < 2 ^ 31) :
    toInt32 (UInt32.ofInt i) = i := by
  unfold toInt32
  rw [toNat_ofInt hLow (by omega), Int.toNat_of_nonneg hLow]
  apply Int.bmod_eq_of_le
  · simp
    omega
  · simp
    omega

section

variable {i : Int} {payload : Bytes}

/- The number that `add_packet` takes. -/
theorem dataPacket_seq
    (hLow : 0 ≤ i)
    (hHigh : i ≤ maxSeqnum) :
    (dataPacket i payload).seq = i := by
  apply toInt32_ofInt hLow
  have hMax : maxSeqnum = 524288 := by decide
  omega

theorem dataPacket_packetLen
    (hSize : payload.length ≤ maxDataSize) :
    (dataPacket i payload).header.packetLen.toNat =
      16 + payload.length := by
  have hLt : payload.length ≤ 1484 := hSize
  simp only [dataPacket, initPacketHead, UInt16.ofInt]
  rw [UInt16.toNat_ofNat', Int.emod_eq_of_lt (by omega)
    (by omega)]
  rw [Nat.mod_eq_of_lt (by omega)]
  omega

/- The payload that `add_packet` takes. -/
theorem dataPacket_payload
    (hSize : payload.length ≤ maxDataSize) :
    (dataPacket i payload).payload = payload := by
  unfold Packet.payload
  rw [dataPacket_packetLen hSize]
  have hLength :
      16 + payload.length - packetHeadSize =
        payload.length :=
    Nat.add_sub_cancel_left 16 payload.length
  rw [hLength]
  exact List.take_length

theorem dataPacket_whole
    (hSize : payload.length ≤ maxDataSize) :
    (dataPacket i payload).Whole := by
  unfold Packet.Whole
  rw [dataPacket_packetLen hSize]
  constructor
  · exact Nat.le_add_right 16 payload.length
  · simp [dataPacket]

/- It is queued as it is. -/
theorem dataPacket_copy
    (hSize : payload.length ≤ maxDataSize) :
    (dataPacket i payload).copy = dataPacket i payload := by
  unfold Packet.copy
  rw [dataPacket_payload hSize]
  rfl

end

end PeerNet

------------------------------------------------------------
-- All Packets
------------------------------------------------------------

namespace PeerNet

open Reassembly

/- The parts of what was read of a chunk. -/
def parts
    (filechunk : Bytes)
    (readBytes : Nat) : List Bytes :=
  cut maxDataSize (numPackets readBytes)
    (filechunk.take readBytes)

/- DATA packets for parts, numbered from `i`. -/
def numbered :
    Int → List Bytes → List Packet
| _, [] => []
| i, part :: rest =>
    dataPacket i part :: numbered (i + 1) rest

theorem getElem?_numbered
    (i : Int)
    (pieces : List Bytes)
    (k : Nat) :
    (numbered i pieces)[k]? =
      pieces[k]?.map (dataPacket (i + k)) := by
  induction pieces generalizing i k with
  | nil => simp [numbered]
  | cons part rest ih =>
      cases k with
      | zero => simp [numbered]
      | succ k =>
          simp only [numbered, List.getElem?_cons_succ, ih]
          congr 2
          push_cast
          omega

@[simp] theorem length_numbered
    (i : Int)
    (pieces : List Bytes) :
    (numbered i pieces).length = pieces.length := by
  induction pieces generalizing i with
  | nil => rfl
  | cons part rest ih => simp [numbered, ih]

theorem numbered_seq
    {i : Int}
    (hLow : 0 ≤ i)
    (pieces : List Bytes)
    (hHigh : i + pieces.length ≤ maxSeqnum + 1) :
    (numbered i pieces).map Packet.seq =
      (List.range pieces.length).map
        (fun k => i + (k : Nat)) := by
  induction pieces generalizing i with
  | nil => rfl
  | cons part rest ih =>
      rw [List.length_cons] at hHigh
      push_cast at hHigh
      rw [numbered, List.map_cons, List.length_cons,
        List.range_succ_eq_map, List.map_cons, List.map_map,
        ih (by omega) (by omega),
        dataPacket_seq hLow (by omega)]
      congr 1
      · simp
      · apply List.map_congr_left
        intro k _
        simp only [Function.comp]
        push_cast
        omega

theorem nodup_numbered_seq
    {i : Int}
    (hLow : 0 ≤ i)
    (pieces : List Bytes)
    (hHigh : i + pieces.length ≤ maxSeqnum + 1) :
    ((numbered i pieces).map Packet.seq).Nodup := by
  rw [numbered_seq hLow pieces hHigh]
  apply List.Nodup.map _ List.nodup_range
  intro k l hSame
  dsimp only at hSame
  omega

/- Each packet carries the part of its number. -/
theorem mem_numbered
    {i : Int}
    {pieces : List Bytes}
    {packet : Packet}
    (hPacket : packet ∈ numbered i pieces) :
    ∃ k part, pieces[k]? = some part ∧
      packet = dataPacket (i + (k : Nat)) part := by
  rcases List.mem_iff_getElem?.mp hPacket with ⟨k, hk⟩
  rw [getElem?_numbered] at hk
  rcases Option.map_eq_some_iff.mp hk with
    ⟨part, hPart, hSame⟩
  exact ⟨k, part, hPart, hSame.symm⟩

/- Enough packets, and not one too many. -/
theorem numPackets_spec
    (readBytes : Nat) :
    readBytes ≤ numPackets readBytes * maxDataSize ∧
      (0 < readBytes →
        (numPackets readBytes - 1) * maxDataSize <
          readBytes) := by
  have hSize : maxDataSize = 1484 := rfl
  unfold numPackets
  rw [hSize]
  dsimp only
  split
  · omega
  · omega

/- The cutting loop makes the numbered parts. -/
theorem cutPackets_eq
    {filechunk : Bytes}
    {readBytes : Nat}
    (hRead : readBytes ≤ filechunk.length)
    (count : Nat)
    (i : Int)
    (chunkBytes : Nat)
    (hDone : chunkBytes ≤ readBytes) :
    cutPackets filechunk readBytes count i chunkBytes =
      (numbered i
        (cut maxDataSize count
          ((filechunk.take readBytes).drop chunkBytes)),
        min readBytes (chunkBytes + count * maxDataSize)) := by
  induction count generalizing i chunkBytes with
  | zero =>
      simp [cutPackets, cut, numbered, hDone]
  | succ count ih =>
      have hTail :=
        ih (i + 1)
          (chunkBytes +
            min (readBytes - chunkBytes) maxDataSize)
          (by omega)
      have hPart :
          (filechunk.drop chunkBytes).take
              (min (readBytes - chunkBytes) maxDataSize) =
            ((filechunk.take readBytes).drop
              chunkBytes).take maxDataSize := by
        rw [List.drop_take, List.take_take, Nat.min_comm]
      have hLength :
          (((filechunk.take readBytes).drop
              chunkBytes).take maxDataSize).length =
            min (readBytes - chunkBytes) maxDataSize := by
        simp only [List.length_take, List.length_drop]
        omega
      have hRest :
          (filechunk.take readBytes).drop
              (chunkBytes +
                min (readBytes - chunkBytes) maxDataSize) =
            ((filechunk.take readBytes).drop
              chunkBytes).drop maxDataSize := by
        rw [List.drop_drop]
        rcases Nat.le_total maxDataSize
            (readBytes - chunkBytes) with hFull | hLast
        · rw [Nat.min_eq_right hFull]
        · -- the last part: nothing is left
          rw [List.drop_eq_nil_of_le, List.drop_eq_nil_of_le]
          · rw [List.length_take]
            omega
          · rw [List.length_take]
            omega
      simp only [cutPackets, hTail, cut, numbered,
        Prod.mk.injEq, List.cons.injEq]
      refine ⟨⟨?_, ?_⟩, ?_⟩
      · rw [dataPacket, hLength, hPart]
      · rw [hRest]
      · rw [Nat.succ_mul]
        omega

section

variable {filechunk : Bytes} {readBytes : Nat}

theorem cutPackets_all
    (hRead : readBytes ≤ filechunk.length) :
    cutPackets filechunk readBytes (numPackets readBytes) 1
        0 =
      (numbered 1 (parts filechunk readBytes),
        readBytes) := by
  have hCount := (numPackets_spec readBytes).1
  rw [cutPackets_eq hRead _ _ 0 (Nat.zero_le _), parts,
    List.drop_zero, Prod.mk.injEq]
  exact ⟨rfl, by omega⟩

theorem dataPackets_eq
    (hRead : readBytes ≤ filechunk.length) :
    dataPackets filechunk readBytes =
      numbered 1 (parts filechunk readBytes) := by
  rw [dataPackets, cutPackets_all hRead]

@[simp] theorem length_parts :
    (parts filechunk readBytes).length =
      numPackets readBytes :=
  length_cut _ _ _

theorem flatten_parts :
    (parts filechunk readBytes).flatten =
      filechunk.take readBytes := by
  have hCount := (numPackets_spec readBytes).1
  rw [parts, flatten_cut]
  apply List.take_of_length_le
  rw [List.length_take]
  omega

theorem length_le_of_mem_parts
    {part : Bytes}
    (hPart : part ∈ parts filechunk readBytes) :
    part.length ≤ maxDataSize :=
  length_le_of_mem_cut hPart

theorem length_pos_of_mem_parts
    (hRead : readBytes ≤ filechunk.length)
    {part : Bytes}
    (hPart : part ∈ parts filechunk readBytes) :
    0 < part.length := by
  have hSize : maxDataSize = 1484 := rfl
  rcases Nat.eq_zero_or_pos readBytes with hNone | hPos
  · rw [parts, hNone] at hPart
    simp [numPackets, cut] at hPart
  · apply length_pos_of_mem_cut (by omega) _ hPart
    have hLast := (numPackets_spec readBytes).2 hPos
    rw [List.length_take]
    omega

/- The parts are as long together as what was read. -/
theorem sum_length_parts
    (hRead : readBytes ≤ filechunk.length) :
    ((parts filechunk readBytes).map List.length).sum =
      readBytes := by
  have hCount := (numPackets_spec readBytes).1
  rw [parts, sum_length_cut]
  · rw [List.length_take]
    omega
  · rw [List.length_take]
    omega

end

end PeerNet
