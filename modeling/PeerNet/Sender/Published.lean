import PeerNet.Model.Publish
import PeerNet.Packets.Chunk
import PeerNet.Packets.ExactFill
import PeerNet.Sender.Serving

/-
  What a publisher hashes and what a peer serves of it.

  `make_chunks` hashes the bytes it has read, `send_data` the
  whole buffer it has read them into, and a receiver counts
  the bytes up to a whole chunk. They agree on a chunk that
  is whole and starts where an `int` can say so.

  Main declarations:
    * `getElem?_chunkReads`
    * `Carries`
    * `AsPublished`
    * `published_served_iff`
-/

------------------------------------------------------------
-- What Is Hashed
------------------------------------------------------------

namespace PeerNet

/- Buffer `i` is part `i` of the file. -/
theorem getElem?_chunkReads
    {fuel : Nat}
    {file : Bytes}
    (hFuel : file.length < fuel)
    (i : Nat) :
    (chunkReads fuel file)[i]? =
      if i * btChunkSize < file.length then
        some ((file.drop (i * btChunkSize)).take btChunkSize)
      else
        none := by
  have hSize : btChunkSize = 524288 := rfl
  induction fuel generalizing file i with
  | zero => omega
  | succ fuel ih =>
      unfold chunkReads
      split
      · next hNone =>
          have hEmpty : file.length = 0 := by
            have hTake := congrArg List.length hNone
            rw [List.length_take, List.length_nil] at hTake
            omega
          rw [List.getElem?_nil, if_neg (by omega)]
      · next hSome =>
          have hPos : 0 < (file.take btChunkSize).length :=
            List.length_pos_of_ne_nil hSome
          rw [List.length_take] at hPos
          cases i with
          | zero =>
              rw [List.getElem?_cons_zero, Nat.zero_mul,
                if_pos (by omega), List.drop_zero]
          | succ i =>
              rw [List.getElem?_cons_succ,
                ih (by rw [List.length_drop]; omega),
                List.drop_drop, List.length_drop,
                Nat.succ_mul]
              have hNext :
                  i * btChunkSize < file.length - btChunkSize ↔
                    i * btChunkSize + btChunkSize <
                      file.length := by
                omega
              simp only [hNext, Nat.add_comm btChunkSize]

/- A hash that `make_chunks` emits is that of its buffer. -/
theorem makeChunks_read
    {env : Env}
    {file : Bytes}
    {i : Nat}
    {hash : Hash}
    (hEmit : (makeChunks env file)[i]? = some hash) :
    i * btChunkSize < file.length ∧
      hash =
        env.shahash
          ((file.drop (i * btChunkSize)).take
            btChunkSize) := by
  unfold makeChunks at hEmit
  rw [List.getElem?_map,
    getElem?_chunkReads (Nat.lt_succ_self _)] at hEmit
  by_cases hIn : i * btChunkSize < file.length
  · rw [if_pos hIn] at hEmit
    exact ⟨hIn, (Option.some.inj hEmit).symm⟩
  · rw [if_neg hIn] at hEmit
    cases hEmit

end PeerNet

------------------------------------------------------------
-- What Is Read
------------------------------------------------------------

namespace PeerNet

/- The master data file is `file`, and a hash has id `i`. -/
structure Shares
    (env : Env)
    (n : Node)
    (file : Bytes)
    (hash : Hash)
    (i : Nat) : Prop where
  id : hasChunk env n.files n.config hash = .ok (i : Int)
  master : ∃ name,
    masterDataFile env n.files n.config = .ok (some name) ∧
      n.files.content name = some file

section

variable {env : Env} {n : Node} {file : Bytes}
variable {hash : Hash} {i : Nat}

/- The offset is an `int`. -/
theorem readChunk_published
    (hIn : i * btChunkSize < file.length) :
    readChunk file i =
      if i < 4096 then
        .ok (some
          ((file.drop (i * btChunkSize)).take btChunkSize))
      else
        .error .offsetOverflow := by
  have hSize : btChunkSize = 524288 := rfl
  have hOffset :
      (i : Int) * (btChunkSize : Nat) =
        ((i * btChunkSize : Nat) : Int) := by
    push_cast
    rfl
  have hPlace : i * btChunkSize = i * 524288 := by
    rw [hSize]
  unfold readChunk
  dsimp only
  rw [hOffset]
  by_cases hLow : i < 4096
  · rw [if_pos hLow, if_neg (by omega), if_neg (by omega),
      Int.toNat_natCast]
    split
    · next hNone =>
        have hLength := congrArg List.length hNone
        rw [List.length_take, List.length_drop,
          List.length_nil] at hLength
        omega
    · rfl
  · rw [if_neg hLow, if_pos (by omega)]

/- What `send_data` goes on with. -/
theorem dataChunk_shared
    (h : Shares env n file hash i) :
    dataChunk env n.files n.config hash =
      (readChunk file i).map fun found =>
        found.bind fun bytes =>
          if hashEqual hash
              (env.shahash (env.fill btChunkSize bytes)) then
            some (env.fill btChunkSize bytes, bytes.length)
          else
            none := by
  rcases h.master with ⟨name, hName, hData⟩
  have hId : ¬ (i : Int) < 0 := by omega
  have hOk :
      ∀ {α β : Type} (a : α) (f : α → Except Fault β),
        (Except.ok a >>= f) = f a :=
    fun _ _ => rfl
  have hError :
      ∀ {α β : Type} (fault : Fault)
        (f : α → Except Fault β),
        (Except.error fault >>= f) = .error fault :=
    fun _ _ => rfl
  unfold dataChunk
  rw [h.id, hOk, if_neg hId, hName, hOk]
  dsimp only
  rw [hData]
  dsimp only
  cases readChunk file i with
  | error f =>
      rw [hError]
      rfl
  | ok found =>
      rw [hOk]
      cases found with
      | none => rfl
      | some bytes =>
          dsimp only [Except.map, Option.bind]
          split <;> rfl

end

end PeerNet

------------------------------------------------------------
-- What Is Sent and Received
------------------------------------------------------------

namespace PeerNet

open Reassembly

/- DATA packets, numbered from 1, that carry some bytes. -/
structure Carries
    (packets : List Packet)
    (bytes : Bytes) : Prop where
  numbers : ∀ (k : Nat) packet, packets[k]? = some packet →
    packet.seq = (k : Int) + 1
  data : ∀ packet ∈ packets,
    packet.header.type = typeData ∧ packet.Whole ∧
      packet.payload ≠ []
  carried : (packets.map Packet.payload).flatten = bytes

/-
  `finish_chunk` is entered for the chunk `r`, and finds that
  it has the hash.
-/
def Recognised
    (env : Env)
    (src : Addr)
    (n : Node)
    (packets : List Packet)
    (r : ChunkRef)
    (hash : Hash) : Prop :=
  ∃ nodes buffer,
    .finishChunk r (.live nodes) ∈
        n.output (afterData env src n packets) ∧
      writeToBuffer env nodes = .ok buffer ∧
        hashEqual hash (env.shahash buffer) = true

section

variable {env : Env} {n : Node} {src : Addr}
variable {p : PeerRef} {r : ChunkRef} {bytes : Bytes}
variable {packets arrivals : List Packet}
variable {packet : Packet} {slots : List (Option Bytes)}

/- Parts that are not empty are no more than their bytes. -/
theorem length_le_flatten
    {pieces : List Bytes}
    (hSome : ∀ piece ∈ pieces, piece ≠ []) :
    pieces.length ≤ pieces.flatten.length := by
  have hLe :
      (pieces.map List.length).length ≤
        (pieces.map List.length).sum := by
    apply List.length_le_sum_of_one_le
    intro size hSize
    rcases List.mem_map.mp hSize with ⟨piece, hMem, rfl⟩
    exact List.length_pos_of_ne_nil (hSome piece hMem)
  rwa [List.length_map, ← List.length_flatten] at hLe

/- `send_data`'s packets carry what it has read. -/
theorem carries_dataPackets
    (hFits : bytes.length ≤ btChunkSize) :
    Carries (dataPackets bytes bytes.length) bytes := by
  have hMax : maxSeqnum = 524288 := by decide
  have hChunk : btChunkSize = 524288 := rfl
  have hRead : bytes.length ≤ bytes.length := Nat.le_refl _
  rw [dataPackets_eq hRead]
  have hSome :
      ∀ part ∈ parts bytes bytes.length, part ≠ [] :=
    fun part hPart =>
      List.ne_nil_of_length_pos
        (length_pos_of_mem_parts hRead hPart)
  have hFew := length_le_flatten hSome
  rw [flatten_parts, List.take_length] at hFew
  constructor
  · intro k packet hAt
    have hLt := (List.getElem?_eq_some_iff.mp hAt).1
    rw [length_numbered] at hLt
    rw [getElem?_numbered] at hAt
    rcases Option.map_eq_some_iff.mp hAt with ⟨part, -, rfl⟩
    rw [dataPacket_seq (by omega) (by omega)]
    omega
  · intro packet hPacket
    rcases mem_numbered hPacket with ⟨k, part, hPart, rfl⟩
    have hMem := List.mem_of_getElem? hPart
    have hSmall := length_le_of_mem_parts hMem
    refine ⟨rfl, dataPacket_whole hSmall, ?_⟩
    rw [dataPacket_payload hSmall]
    exact hSome part hMem
  · have hPayloads :
        ∀ (pieces : List Bytes) (i : Int),
          (∀ piece ∈ pieces, piece.length ≤ maxDataSize) →
            (numbered i pieces).map Packet.payload =
              pieces := by
      intro pieces
      induction pieces with
      | nil => exact fun _ _ => rfl
      | cons piece pieces ih =>
          intro i hSmall
          rw [List.forall_mem_cons] at hSmall
          rw [numbered, List.map_cons,
            dataPacket_payload hSmall.1, ih _ hSmall.2]
    rw [hPayloads _ _ fun _ => length_le_of_mem_parts,
      flatten_parts, List.take_length]

/- The payloads are as long together as the bytes. -/
theorem Carries.size
    (h : Carries packets bytes) :
    ((packets.map Packet.payload).map List.length).sum =
      bytes.length := by
  rw [← h.carried, List.length_flatten]

theorem Carries.length_le
    (h : Carries packets bytes) :
    packets.length ≤ bytes.length := by
  have hLe :
      (packets.map Packet.payload).length ≤
        (packets.map Packet.payload).flatten.length := by
    apply length_le_flatten
    intro payload hMem
    rcases List.mem_map.mp hMem with ⟨packet, hPacket, rfl⟩
    exact (h.data packet hPacket).2.2
  rwa [List.length_map, h.carried] at hLe

/- A packet brings the part of its slot. -/
theorem Carries.brings
    (h : Carries packets bytes)
    (hFits : bytes.length ≤ btChunkSize)
    (hPacket : packet ∈ packets) :
    Acceptable packet ∧
      (packets.map Packet.payload)[packet.slot]? =
        some packet.payload := by
  rcases List.mem_iff_getElem?.mp hPacket with ⟨k, hAt⟩
  have hMax : maxSeqnum = 524288 := by decide
  have hInit : initSeqnum = 1 := rfl
  have hChunk : btChunkSize = 524288 := rfl
  have hSeq := h.numbers k packet hAt
  have hLt := (List.getElem?_eq_some_iff.mp hAt).1
  have hFew := h.length_le
  have hSlot : packet.slot = k := by
    unfold Packet.slot
    omega
  refine ⟨⟨by omega, by omega, (h.data packet hPacket).2.1⟩,
    ?_⟩
  rw [hSlot, List.getElem?_map, hAt]
  rfl

/-
  Arrivals of these packets: either the bytes are too few and
  the fetch goes on with every packet that came, or the chunk
  is finished with enough of them.
-/
theorem Carries.fetch
    (h : Carries packets bytes)
    (env : Env)
    (hFits : bytes.length ≤ btChunkSize)
    (hArrivals : ∀ packet ∈ arrivals, packet ∈ packets)
    (hFetch : FetchOf n.config src p r slots)
    (hRun : n.fault = none)
    (hParts : Fits slots (packets.map Packet.payload))
    (hShort : bufferSize slots < btChunkSize) :
    (∃ slots',
      Fits slots' (packets.map Packet.payload) ∧
        (∀ i, (content slots i).isSome →
          (content slots' i).isSome) ∧
        (∀ packet ∈ arrivals,
          (content slots' packet.slot).isSome) ∧
        bufferSize slots' < btChunkSize ∧
        (afterData env src n arrivals).trace = n.trace) ∨
      ∃ slots' rest,
        Fits slots' (packets.map Packet.payload) ∧
          btChunkSize ≤ bufferSize slots' ∧
          (afterData env src n arrivals).trace =
            n.trace ++
              .finishChunk r (.live (nodesOf slots')) ::
                rest := by
  induction arrivals generalizing n slots with
  | nil =>
      exact .inl ⟨slots, hParts, fun _ h => h, nofun, hShort,
        rfl⟩
  | cons packet arrivals ih =>
      rw [List.forall_mem_cons] at hArrivals
      rcases h.brings hFits hArrivals.1 with
        ⟨hAccept, hPart⟩
      have hStored :
          Fits (putPacket slots packet)
            (packets.map Packet.payload) :=
        hParts.put hPart
      have hAfter :
          afterData env src n (packet :: arrivals) =
            afterData env src
              (n.step env (.data src packet)) arrivals :=
        rfl
      rw [hAfter]
      rcases hFetch.step env hRun hAccept with
        ⟨hStill, hKept⟩ | ⟨hFull, hEnded⟩
      · -- the fetch goes on
        rcases ih hArrivals.2 hKept.fetch hKept.fault hStored
            hStill with
          ⟨slots', hIs, hMore, hCame, hSize, hTrace⟩ |
          ⟨slots', rest, hIs, hSize, hTrace⟩
        · left
          refine ⟨slots', hIs, ?_, ?_, hSize, ?_⟩
          · intro i hSome
            apply hMore
            rcases Option.isSome_iff_exists.mp hSome with
              ⟨b, hb⟩
            unfold putPacket
            rw [content_put_of_content hb]
            rfl
          · rw [List.forall_mem_cons]
            exact ⟨hMore _ (content_put_self _ _ _), hCame⟩
          · rw [hTrace, hKept.trace]
        · right
          refine ⟨slots', rest, hIs, hSize, ?_⟩
          rw [hTrace, hKept.trace]
      · -- `finish_chunk` was entered
        right
        rcases hEnded.trace with ⟨rest, hTrace, -⟩
        refine ⟨_, rest, hStored, hFull, ?_⟩
        rw [hEnded.none.afterData, hTrace]

/- All packets of a whole chunk make the receiver finish it. -/
theorem Carries.recognised
    (h : Carries packets bytes)
    (env : Env)
    (hWhole : bytes.length = btChunkSize)
    (hFetch : FetchOf n.config src p r [])
    (hRun : n.fault = none)
    (hAll :
      ∀ packet, packet ∈ arrivals ↔ packet ∈ packets) :
    Recognised env src n arrivals r (env.shahash bytes) := by
  have hSize := h.size
  have hEmpty :
      bufferSize ([] : List (Option Bytes)) < btChunkSize := by
    decide
  rcases h.fetch env hWhole.le (fun packet => (hAll packet).mp)
      hFetch hRun (Fits.nil _) hEmpty with
    ⟨slots, hIs, _, hCame, hShort, _⟩ |
    ⟨slots, rest, hIs, hFull, hTrace⟩
  · -- no slot is empty, so the buffer is full
    have hSlots :
        slots = (packets.map Packet.payload).map some := by
      apply eq_map_some_of_firstGap hIs
      apply le_firstGap_of_forall
      intro k hk
      rw [List.length_map] at hk
      have hAt : packets[k]? = some packets[k] :=
        List.getElem?_eq_getElem hk
      have hMem := List.getElem_mem hk
      have hSlot : packets[k].slot = k := by
        have hSeq := h.numbers k _ hAt
        unfold Packet.slot
        have hInit : initSeqnum = 1 := rfl
        omega
      rw [← hSlot]
      exact hCame _ ((hAll _).mpr hMem)
    rw [hSlots, bufferSize_map_some, h.carried] at hShort
    omega
  · -- the buffer is full, so no slot is empty
    have hLe := volume_le List.length hIs
    rw [hSize] at hLe
    have hSlots :
        slots = (packets.map Packet.payload).map some := by
      apply (volume_eq_iff hIs _).mp
      · rw [hSize]
        exact Nat.le_antisymm hLe (hWhole.symm ▸ hFull)
      · intro payload hMem
        rcases List.mem_map.mp hMem with ⟨packet, hPacket, rfl⟩
        exact List.length_pos_of_ne_nil
          (h.data packet hPacket).2.2
    refine ⟨nodesOf slots, bytes, ?_, ?_, ?_⟩
    · rw [Node.output_of_append hTrace]
      exact List.mem_cons_self
    · rw [hSlots, writeToBuffer_nodesOf env, h.carried]
      rw [h.carried, hWhole]
    · simp [hashEqual]

/- Those of a shorter one never do. -/
theorem Carries.not_recognised
    (h : Carries packets bytes)
    (env : Env)
    (hPart : bytes.length < btChunkSize)
    (hFetch : FetchOf n.config src p r [])
    (hRun : n.fault = none)
    (hash : Hash) :
    ¬ Recognised env src n packets r hash := by
  have hEmpty :
      bufferSize ([] : List (Option Bytes)) < btChunkSize := by
    decide
  rintro ⟨nodes, buffer, hMem, -⟩
  rcases h.fetch env hPart.le (fun _ hPacket => hPacket) hFetch
      hRun (Fits.nil _) hEmpty with
    ⟨_, _, _, _, _, hTrace⟩ | ⟨slots, _, hIs, hFull, _⟩
  · have hOutput :
        n.output (afterData env src n packets) = [] := by
      apply Node.output_of_append
      simpa using hTrace
    rw [hOutput] at hMem
    cases hMem
  · have hLe := volume_le List.length hIs
    rw [h.size] at hLe
    exact absurd (hFull.trans hLe) (Nat.not_le.mpr hPart)

end

end PeerNet

------------------------------------------------------------
-- Publisher, Sender and Receiver
------------------------------------------------------------

namespace PeerNet

open Prog

/-
  `send_data` makes an upload of these packets, they carry
  the bytes, and a receiver that has them all, in any order
  and as often as they come, recognises the chunk.
-/
structure AsPublished
    (env : Env)
    (n : Node)
    (dest : Addr)
    (hash : Hash)
    (bytes : Bytes)
    (packets : List Packet) : Prop where
  uploaded : ∃ peer,
    sendData env dest hash n =
      .ok 0
        (n.onConfig (BtConfig.addSenderList
          (newSender hash (some (packets.map some))
            packets.length peer)))
  carried : Carries packets bytes
  recognised : ∀ (env' : Env) (m : Node) (src : Addr)
      (p : PeerRef) (r : ChunkRef) (arrivals : List Packet),
    env'.shahash = env.shahash →
      FetchOf m.config src p r [] → m.fault = none →
        (∀ packet, packet ∈ arrivals ↔ packet ∈ packets) →
          Recognised env' src m arrivals r hash

section

variable {env : Env} {n m : Node} {file : Bytes}
variable {hash : Hash} {i : Nat} {dest : Addr}
variable {peer : PeerRef} {bytes filechunk : Bytes}
variable {readBytes : Nat}

/- What `send_data` does with a chunk it has read. -/
theorem sendData_uploads
    (hRead : readBytes ≤ filechunk.length)
    (hChunk :
      dataChunk env n.files n.config hash =
        .ok (some (filechunk, readBytes)))
    (hPeer : peerWithAddr dest n.config = some peer) :
    sendData env dest hash n =
      .ok 0
        (n.onConfig (BtConfig.addSenderList
          (newSender hash
            (some ((dataPackets filechunk readBytes).map some))
            (dataPackets filechunk readBytes).length
            peer))) := by
  apply wp_eq_ok.mp
  unfold sendData
  rw [wp_bind, wp_get, wp_bind, wp_lift, hChunk]
  refine ⟨?_, nofun⟩
  rintro found hFound
  cases hFound
  dsimp only
  rw [cutPackets_all hRead, wp_ite, hPeer]
  refine ⟨fun hTorn => absurd rfl hTorn, fun _ => ⟨rfl, ?_⟩⟩
  rw [dataPackets_eq hRead, length_numbered, length_parts]

/- It returns 0 only where it has read a chunk. -/
theorem dataChunk_of_sendData
    (hSent : sendData env dest hash n = .ok 0 m) :
    ∃ found,
      dataChunk env n.files n.config hash =
        .ok (some found) := by
  have hWp := wp_eq_ok.mpr hSent
  unfold sendData at hWp
  rw [wp_bind, wp_get, wp_bind, wp_lift] at hWp
  cases hChunk : dataChunk env n.files n.config hash with
  | error f => exact (hWp.2 f hChunk).elim
  | ok found =>
      cases found with
      | none =>
          have hEnd : (-1 : Int) = 0 := (hWp.1 none hChunk).1
          exact absurd hEnd (by decide)
      | some found => exact ⟨found, rfl⟩

end

/-
  A chunk that `make_chunks` hashed is served and recognised
  as it was published if and only if it is a whole chunk and
  the offset of its id does not overflow an `int`.
-/
theorem published_served_iff
    {env : Env}
    {n : Node}
    {dest : Addr}
    {file : Bytes}
    {i : Nat}
    {hash : Hash}
    (hPeer : (peerWithAddr dest n.config).isSome)
    (hEmit : (makeChunks env file)[i]? = some hash)
    (hShares : Shares env n file hash i) :
    (∃ packets,
        AsPublished env n dest hash
          ((file.drop (i * btChunkSize)).take btChunkSize)
          packets) ↔
      (i + 1) * btChunkSize ≤ file.length ∧ i < 4096 := by
  rcases makeChunks_read hEmit with ⟨hIn, hHash⟩
  have hChunk := dataChunk_shared hShares
  rw [readChunk_published hIn] at hChunk
  have hLength :
      ((file.drop (i * btChunkSize)).take
          btChunkSize).length =
        min btChunkSize (file.length - i * btChunkSize) := by
    rw [List.length_take, List.length_drop]
  rw [Nat.succ_mul]
  constructor
  · rintro ⟨packets, h⟩
    rcases h.uploaded with ⟨peer, hSent⟩
    rcases dataChunk_of_sendData hSent with ⟨found, hFound⟩
    rw [hFound] at hChunk
    have hLow : i < 4096 := by
      by_contra hHigh
      rw [if_neg hHigh] at hChunk
      cases hChunk
    refine ⟨?_, hLow⟩
    by_contra hPart
    have hShort :
        ((file.drop (i * btChunkSize)).take
            btChunkSize).length < btChunkSize := by
      omega
    exact
      h.carried.not_recognised env hShort askedNode_fetch
        askedNode_fault hash
        (h.recognised env askedNode ⟨1, 1⟩ 0 0 packets rfl
          askedNode_fetch askedNode_fault fun _ => Iff.rfl)
  · rintro ⟨hFull, hLow⟩
    have hWhole :
        ((file.drop (i * btChunkSize)).take
            btChunkSize).length = btChunkSize := by
      omega
    generalize
      (file.drop (i * btChunkSize)).take btChunkSize = bytes
        at hHash hChunk hWhole ⊢
    rcases Option.isSome_iff_exists.mp hPeer with ⟨peer, hIs⟩
    have hRead :
        dataChunk env n.files n.config hash =
          .ok (some (bytes, bytes.length)) := by
      rw [hChunk, if_pos hLow]
      simp [Except.map, fill_full env hWhole, hHash, hashEqual]
    have hCarries := carries_dataPackets hWhole.le
    have hUploads :=
      sendData_uploads (Nat.le_refl _) hRead hIs
    exact
      ⟨_, ⟨peer, hUploads⟩, hCarries, by
        intro env' m src p r arrivals hSha hFetch hRun hAll
        rw [hHash, ← hSha]
        exact hCarries.recognised env' hWhole hFetch hRun hAll⟩

/- `File: 5`: a master-chunk file that names the data. -/
def sharedText : Bytes :=
  [70, 105, 108, 101, 58, 32, 53, 10]

/- A peer that shares a file, and has its chunk 0. -/
def sharingNode
    (file : Bytes) : Node :=
  { onePeerNode with
    config := { onePeerConfig with hasChunkFile := [4] }
    files :=
      { content := fun path =>
          if path = [4] then some oneChunkText
          else if path = [1] then some sharedText
          else if path = [53] then some file
          else none
        writable := fun _ => true } }

theorem sharingNode_dataFile
    (file : Bytes) :
    masterDataFile stillEnv (sharingNode file).files
        (sharingNode file).config =
      .ok (some [53]) := by
  have hText :
      (sharingNode file).files.content
          (sharingNode file).config.chunkFile =
        some sharedText :=
    rfl
  unfold masterDataFile
  rw [hText]
  decide

theorem sharingNode_shares
    (file : Bytes) :
    Shares stillEnv (sharingNode file) file
      (Vector.replicate 20 0) 0 where
  id := by
    have hText :
        (sharingNode file).files.content
            (sharingNode file).config.hasChunkFile =
          some oneChunkText :=
      rfl
    unfold hasChunk
    rw [hText]
    decide
  master := ⟨[53], sharingNode_dataFile file, rfl⟩

theorem makeChunks_zeros
    {file : Bytes}
    (hSome : file ≠ []) :
    (makeChunks stillEnv file)[0]? =
      some (Vector.replicate 20 0) := by
  have hPos := List.length_pos_of_ne_nil hSome
  unfold makeChunks
  rw [List.getElem?_map,
    getElem?_chunkReads (Nat.lt_succ_self _), Nat.zero_mul,
    if_pos hPos]
  rfl

theorem zeroChunk_ne_nil :
    zeroChunk ≠ [] := by
  apply List.ne_nil_of_length_pos
  unfold zeroChunk
  rw [List.length_replicate]
  decide

theorem published_served_zeros :
    (∃ packets,
        AsPublished stillEnv (sharingNode zeroChunk) ⟨1, 1⟩
          (Vector.replicate 20 0)
          ((zeroChunk.drop (0 * btChunkSize)).take btChunkSize)
          packets) ↔
      (0 + 1) * btChunkSize ≤ zeroChunk.length ∧ 0 < 4096 :=
  published_served_iff rfl (makeChunks_zeros zeroChunk_ne_nil)
    (sharingNode_shares zeroChunk)

/- A file of one byte is published, and never recognised. -/
theorem short_chunk_unserved :
    ¬ ∀ (env : Env) (n : Node) (dest : Addr) (file : Bytes)
        (i : Nat) (hash : Hash),
      (peerWithAddr dest n.config).isSome →
        (makeChunks env file)[i]? = some hash →
          Shares env n file hash i →
            ∃ packets,
              AsPublished env n dest hash
                ((file.drop (i * btChunkSize)).take
                  btChunkSize)
                packets := by
  intro hClaim
  have hServed :=
    hClaim stillEnv (sharingNode [0]) ⟨1, 1⟩ [0] 0
      (Vector.replicate 20 0) rfl
      (makeChunks_zeros (List.cons_ne_nil _ _))
      (sharingNode_shares [0])
  rcases hServed with ⟨packets, h⟩
  have hShort :
      ((([0] : Bytes).drop (0 * btChunkSize)).take
          btChunkSize).length < btChunkSize := by
    rw [Nat.zero_mul, List.drop_zero, List.length_take]
    decide
  exact
    h.carried.not_recognised stillEnv hShort askedNode_fetch
      askedNode_fault _
      (h.recognised stillEnv askedNode ⟨1, 1⟩ 0 0 packets rfl
        askedNode_fetch askedNode_fault fun _ => Iff.rfl)

end PeerNet
