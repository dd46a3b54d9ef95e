import PeerNet.Packets.Cutting
import PeerNet.Packets.Fetch

/-
  The packets of one whole chunk, as they come to a fetch.

  A packet brings the part of its number, so the slots of an
  honest fetch fit the parts. They are full exactly when all
  parts are there, and what is then hashed is the chunk.

  Main declarations:
    * `chunkParts`
    * `mem_chunkPackets`
    * `bufferSize_full_iff`
    * `writeToBuffer_chunkParts`
-/

------------------------------------------------------------
-- The Packets of the Chunk
------------------------------------------------------------

namespace PeerNet

open Reassembly

/- The parts of a whole chunk. -/
abbrev chunkParts
    (chunk : Bytes) : List Bytes :=
  parts chunk btChunkSize

section

variable {chunk : Bytes} {packet : Packet}
variable {slots : List (Option Bytes)}

theorem length_chunkParts :
    (chunkParts chunk).length = 354 := by
  rw [length_parts]
  decide

/- Packet number `k + 1` goes into slot `k`. -/
theorem slot_dataPacket
    {k : Nat}
    (hk : (k : Int) < maxSeqnum)
    (part : Bytes) :
    (dataPacket (1 + (k : Int)) part).slot = k := by
  unfold Packet.slot
  rw [dataPacket_seq (by omega) (by omega)]
  omega

/- A packet of the chunk brings a part that fits its slot. -/
theorem mem_chunkPackets
    (hPacket : packet ∈ numbered 1 (chunkParts chunk)) :
    (chunkParts chunk)[packet.slot]? = some packet.payload ∧
      Acceptable packet ∧ packet.copy = packet ∧
        packet.header.type = typeData := by
  rcases mem_numbered hPacket with ⟨k, part, hPart, rfl⟩
  have hSmall : part.length ≤ maxDataSize :=
    length_le_of_mem_parts (List.mem_of_getElem? hPart)
  have hLt := (List.getElem?_eq_some_iff.mp hPart).1
  rw [length_chunkParts] at hLt
  have hMax : maxSeqnum = 524288 := by decide
  have hInit : initSeqnum = 1 := rfl
  have hSeq : (dataPacket (1 + (k : Int)) part).seq =
      1 + (k : Int) :=
    dataPacket_seq (by omega) (by omega)
  rw [slot_dataPacket (by omega), dataPacket_payload hSmall]
  refine ⟨hPart, ⟨?_, ?_, dataPacket_whole hSmall⟩,
    dataPacket_copy hSmall, rfl⟩
  · rw [hSeq]
    omega
  · rw [hSeq]
    omega

theorem putPacket_fits
    (hFits : Fits slots (chunkParts chunk))
    (hPacket : packet ∈ numbered 1 (chunkParts chunk)) :
    Fits (putPacket slots packet) (chunkParts chunk) :=
  hFits.put (mem_chunkPackets hPacket).1

/- A complete buffer has nothing to add. -/
theorem putPacket_full
    (hPacket : packet ∈ numbered 1 (chunkParts chunk)) :
    putPacket ((chunkParts chunk).map some) packet =
      (chunkParts chunk).map some := by
  apply putPacket_of_content
  apply isSome_of_lt_firstGap
  rw [firstGap_map_some]
  exact
    (List.getElem?_eq_some_iff.mp
      (mem_chunkPackets hPacket).1).1

/- The bytes make a chunk exactly if all parts are there. -/
theorem bufferSize_full_iff
    (hSize : chunk.length = btChunkSize)
    (hFits : Fits slots (chunkParts chunk)) :
    btChunkSize ≤ bufferSize slots ↔
      slots = (chunkParts chunk).map some := by
  have hSum :
      ((chunkParts chunk).map List.length).sum =
        btChunkSize :=
    sum_length_parts hSize.ge
  have hIff := volume_eq_iff hFits
    (fun part hPart => length_pos_of_mem_parts hSize.ge hPart)
  have hLe := volume_le List.length hFits
  rw [hSum] at hIff hLe
  rw [← hIff]
  constructor
  · intro hFull
    exact Nat.le_antisymm hLe hFull
  · intro hFull
    exact hFull.ge

/- The buffer that is hashed is the chunk. -/
theorem writeToBuffer_chunkParts
    (env : Env)
    (hSize : chunk.length = btChunkSize) :
    writeToBuffer env
        (nodesOf ((chunkParts chunk).map some)) =
      .ok chunk := by
  have hFlatten : (chunkParts chunk).flatten = chunk := by
    rw [flatten_parts, List.take_of_length_le hSize.le]
  rw [writeToBuffer_nodesOf]
  · rw [hFlatten]
  · rw [hFlatten, hSize]

/- As long as parts are missing, some packet has not come. -/
theorem missing_packet
    (hSize : chunk.length = btChunkSize)
    (hFits : Fits slots (chunkParts chunk))
    (hMissing : slots ≠ (chunkParts chunk).map some) :
    ∃ packet ∈ dataPackets chunk btChunkSize,
      content slots packet.slot = none := by
  by_contra hAll
  push Not at hAll
  apply hMissing
  apply eq_map_some_of_firstGap hFits
  apply le_firstGap_of_forall
  intro i hi
  have hMem :
      (numbered 1 (chunkParts chunk))[i]? =
        some (dataPacket (1 + (i : Int))
          (chunkParts chunk)[i]) := by
    rw [getElem?_numbered, List.getElem?_eq_getElem hi]
    rfl
  have hSmall : (i : Int) < maxSeqnum := by
    have hMax : maxSeqnum = 524288 := by decide
    rw [length_chunkParts] at hi
    omega
  rw [← slot_dataPacket hSmall (chunkParts chunk)[i]]
  apply Option.isSome_iff_ne_none.mpr
  apply hAll
  rw [dataPackets_eq hSize.ge]
  exact List.mem_of_getElem? hMem

end

/- A chunk of zeros. -/
def zeroChunk : Bytes :=
  List.replicate btChunkSize 0

end PeerNet
