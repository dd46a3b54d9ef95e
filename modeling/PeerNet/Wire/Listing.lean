import Mathlib.Data.List.GetD
import PeerNet.Receiver.Specs
import PeerNet.Wire.RoundTrip
import PeerNet.Wire.Scan

/-
  Packets that list hashes: a count byte, three bytes of
  padding and 20 bytes for each hash.

  `send_ihave` splits its list into packets of at most 74
  hashes, so each of them is framed and lists its part of
  the list.

  Main declarations:
    * `listedHashes`
    * `payloadHashes_listing`
    * `framed_ihavePacket`
    * `sendIhave_spec`
-/

------------------------------------------------------------
-- Lists of Hashes on the Wire
------------------------------------------------------------

namespace PeerNet

/- The payload of a list of hashes. -/
def listing
    (numChunks : UInt8)
    (hashes : List Hash) : Bytes :=
  numChunks :: 0 :: 0 :: 0 ::
    hashes.flatMap (fun hash => hash.toList)

/- The hashes that a packet lists. -/
def listedHashes
    (p : Packet) : List Hash :=
  match p.buf with
  | [] => []
  | numChunks :: _ =>
      payloadHashes p.buf (whohasCount numChunks)

/- A count byte and as many hashes, within one datagram. -/
structure WellFormedList
    (buf : Bytes)
    (count : Nat) : Prop where
  fits : count ≤ maxIhaveChunks
  first : buf.head? = some (UInt8.ofNat count)
  length : buf.length = 4 + 20 * count

section

variable {buf : Bytes} {count : Nat} {hashes : List Hash}

/- The first 20 bytes are a hash that was written there. -/
theorem hashOfBytes_append
    (hash : Hash)
    (rest : Bytes) :
    hashOfBytes (hash.toList ++ rest) = hash := by
  apply Vector.ext
  intro i hi
  have hByte :
      (hash.toList ++ rest).getD i 0 = hash[i] := by
    rw [List.getD_append _ _ _ _ (by simpa using hi)]
    simp [hi]
  simpa [hashOfBytes] using hByte

/- A GET asks for the hash it was made with. -/
theorem hashOfBytes_getPacket
    (hash : Hash) :
    hashOfBytes (getPacket hash).buf = hash := by
  have hSame := hashOfBytes_append hash []
  rw [List.append_nil] at hSame
  exact hSame

@[simp] theorem length_listing
    (numChunks : UInt8)
    (hashes : List Hash) :
    (listing numChunks hashes).length =
      4 + 20 * hashes.length := by
  simp [listing]
  omega

/- Hash `i` of a listing, counted behind the first four bytes. -/
theorem payloadHash_listing
    (numChunks : UInt8)
    (flat : Bytes)
    (i : Nat) :
    payloadHash (numChunks :: 0 :: 0 :: 0 :: flat) i =
      hashOfBytes (flat.drop (20 * i)) := by
  simp [payloadHash, Nat.add_comm 4]

/- Behind the first hash, the others follow. -/
theorem drop_flatMap_toList
    (hash : Hash)
    (hashes : List Hash)
    (i : Nat) :
    ((hash :: hashes).flatMap
        (fun hash => hash.toList)).drop (20 * (i + 1)) =
      (hashes.flatMap (fun hash => hash.toList)).drop
        (20 * i) := by
  have hLength : hash.toList.length = 20 := by simp
  have hOffset :
      20 * (i + 1) = hash.toList.length + 20 * i := by
    rw [hLength]
    omega
  rw [List.flatMap_cons, hOffset,
    List.drop_length_add_append]

/- A flat list of hashes, cut every 20 bytes. -/
theorem map_hashOfBytes_flatMap
    (hashes : List Hash) :
    (List.range hashes.length).map (fun i =>
        hashOfBytes
          ((hashes.flatMap
            (fun hash => hash.toList)).drop (20 * i))) =
      hashes := by
  induction hashes with
  | nil => rfl
  | cons hash hashes ih =>
      rw [List.length_cons, List.range_succ_eq_map,
        List.map_cons, List.map_map, List.flatMap_cons,
        Nat.mul_zero, List.drop_zero, hashOfBytes_append]
      apply congrArg (List.cons hash)
      refine Eq.trans ?_ ih
      apply List.map_congr_left
      intro i _
      have hNext := drop_flatMap_toList hash hashes i
      rw [List.flatMap_cons] at hNext
      exact congrArg hashOfBytes hNext

/- A listing lists its hashes. -/
theorem payloadHashes_listing
    (numChunks : UInt8)
    (hashes : List Hash) :
    payloadHashes (listing numChunks hashes)
        hashes.length =
      hashes := by
  unfold payloadHashes hashesFrom listing
  rw [← List.range_eq_range']
  refine Eq.trans ?_ (map_hashOfBytes_flatMap hashes)
  apply List.map_congr_left
  intro i _
  exact payloadHash_listing numChunks _ i

/- A well-formed payload starts with its count. -/
theorem WellFormedList.cons
    (h : WellFormedList buf count) :
    ∃ rest, buf = UInt8.ofNat count :: rest := by
  have hFirst := h.first
  cases buf with
  | nil => cases hFirst
  | cons numChunks rest =>
      rw [← Option.some.inj hFirst]
      exact ⟨rest, rfl⟩

/- A signed `char` counts to 127. -/
theorem whohasCount_le
    (numChunks : UInt8) :
    whohasCount numChunks ≤ 127 := by
  unfold whohasCount toChar
  omega

/- The count byte, where it does not wrap. -/
theorem whohasCount_ofNat
    (hSmall : count ≤ 127) :
    whohasCount (UInt8.ofNat count) = count := by
  have hByte : (UInt8.ofNat count).toNat = count := by
    rw [UInt8.toNat_ofNat']
    omega
  unfold whohasCount toChar
  rw [hByte]
  omega

end

end PeerNet

------------------------------------------------------------
-- Sending IHAVE
------------------------------------------------------------

namespace PeerNet

open Prog

section

variable {hashes : List Hash} {dest : Addr} {n : Node}

/- A head that `init_packet_head` gave the right length. -/
theorem framed_initPacketHead
    (type : UInt8)
    {len : Int}
    {buf : Bytes}
    (hLen : len = 16 + buf.length)
    (hFits : buf.length ≤ maxDataSize) :
    Framed ⟨initPacketHead type 16 len 0 0, buf⟩ := by
  rw [hLen]
  exact framed_wirePacket type 0 0 hFits

theorem framed_ihavePacket
    (hFew : hashes.length ≤ maxIhaveChunks) :
    Framed (ihavePacket hashes) := by
  have hMax : maxIhaveChunks = 74 := by decide
  have hData : maxDataSize = 1484 := by decide
  have hLength :
      (ihavePacket hashes).buf.length =
        4 + 20 * hashes.length :=
    length_listing _ hashes
  apply framed_initPacketHead typeIhave
  · change _ = 16 + ((ihavePacket hashes).buf.length : Int)
    rw [hLength]
    push_cast
    omega
  · change (ihavePacket hashes).buf.length ≤ _
    omega

/- An IHAVE lists the hashes it was made of. -/
theorem listedHashes_ihavePacket
    (hFew : hashes.length ≤ maxIhaveChunks) :
    listedHashes (ihavePacket hashes) = hashes := by
  have hMax : maxIhaveChunks = 74 := by decide
  have hCount :
      whohasCount (UInt8.ofNat hashes.length) =
        hashes.length :=
    whohasCount_ofNat (by omega)
  unfold listedHashes ihavePacket
  dsimp only
  rw [hCount]
  exact payloadHashes_listing _ hashes

/- The IHAVEs for some parts of a list. -/
def ihaves
    (dest : Addr)
    (parts : List (List Hash)) : List Datagram :=
  parts.map fun part => ⟨ihavePacket part, dest⟩

/- A list, cut into what one IHAVE holds. -/
structure IhaveParts
    (hashes : List Hash)
    (parts : List (List Hash)) : Prop where
  flatten : parts.flatten = hashes
  nonempty : ∀ part ∈ parts, part ≠ []
  few : ∀ part ∈ parts, part.length ≤ maxIhaveChunks

theorem IhaveParts.cons
    {part : List Hash}
    {parts : List (List Hash)}
    (h : IhaveParts hashes parts)
    (hSome : part ≠ [])
    (hFew : part.length ≤ maxIhaveChunks) :
    IhaveParts (part ++ hashes) (part :: parts) where
  flatten := by rw [List.flatten_cons, h.flatten]
  nonempty := by
    intro part' hMem
    rcases List.mem_cons.mp hMem with rfl | hMem
    · exact hSome
    · exact h.nonempty part' hMem
  few := by
    intro part' hMem
    rcases List.mem_cons.mp hMem with rfl | hMem
    · exact hFew
    · exact h.few part' hMem

/-
  The loop of `send_ihave`, for as many hashes as a signed
  `char` counts.
-/
theorem sendIhaveLoop_spec
    {fuel : Nat}
    (hFew : hashes.length ≤ 127)
    (hFuel : hashes.length < fuel) :
    wp (sendIhaveLoop dest fuel hashes)
      (fun ret m =>
        ret = 0 ∧
          ∃ parts, IhaveParts hashes parts ∧
            m = { n with
              queue := n.queue ++ ihaves dest parts })
      (fun _ _ => False) n := by
  have hMax : maxIhaveChunks = 74 := by decide
  induction fuel generalizing hashes n with
  | zero => omega
  | succ fuel ih =>
      unfold sendIhaveLoop
      rw [wp_ite]
      constructor
      · rintro rfl
        refine ⟨rfl, [], ⟨rfl, nofun, nofun⟩, ?_⟩
        simp [ihaves]
      · intro hSome
        have hPos := List.length_pos_of_ne_nil hSome
        have hChar : toChar hashes.length = hashes.length := by
          unfold toChar
          omega
        have hCount :
            (min (hashes.length : Int) maxIhaveChunks).toNat =
              min hashes.length maxIhaveChunks := by
          omega
        dsimp only
        rw [hChar, hCount, wp_ite]
        refine ⟨fun hNeg => by omega, fun _ => ?_⟩
        have hTake :
            (hashes.take
              (min hashes.length maxIhaveChunks)).length =
                min hashes.length maxIhaveChunks := by
          rw [List.length_take]
          omega
        have hDrop :
            (hashes.drop
              (min hashes.length maxIhaveChunks)).length <
                hashes.length := by
          rw [List.length_drop]
          omega
        have hSplit :=
          List.take_append_drop
            (min hashes.length maxIhaveChunks) hashes
        generalize hashes.take
          (min hashes.length maxIhaveChunks) = part at *
        generalize hashes.drop
          (min hashes.length maxIhaveChunks) = rest at *
        have hPart : part.length ≤ maxIhaveChunks := by
          omega
        have hFirst : part ≠ [] :=
          List.ne_nil_of_length_pos (by omega)
        have hFramed := framed_ihavePacket hPart
        rw [wp_bind]
        apply wp_packetNew_copy
        · intro _
          rw [hFramed.copy]
          apply wp_mono (ih (by omega) (by omega))
          · rintro ret m ⟨hRet, parts, hParts, rfl⟩
            have hAll := hParts.cons hFirst hPart
            rw [hSplit] at hAll
            refine ⟨hRet, part :: parts, hAll, ?_⟩
            simp [ihaves, Node.push]
          · exact fun _ _ h => h
        · exact fun hTorn => hTorn hFramed.whole
        · exact fun hTorn => hTorn hFramed.whole

/- `send_ihave` queues its list, cut into packets. -/
theorem sendIhave_spec
    (hFew : hashes.length ≤ 127) :
    wp (sendIhave dest hashes)
      (fun ret m =>
        ret = 0 ∧
          ∃ parts, IhaveParts hashes parts ∧
            m = { n with
              queue := n.queue ++ ihaves dest parts })
      (fun _ _ => False) n :=
  sendIhaveLoop_spec hFew (Nat.lt_succ_self _)

/- What the packets list is the list they were cut from. -/
theorem IhaveParts.listed
    {parts : List (List Hash)}
    (h : IhaveParts hashes parts) :
    (ihaves dest parts).flatMap
        (fun d => listedHashes d.packet) =
      hashes := by
  have hEach :
      (ihaves dest parts).map
          (fun d => listedHashes d.packet) =
        parts := by
    unfold ihaves
    rw [List.map_map]
    refine Eq.trans ?_ (List.map_id parts)
    apply List.map_congr_left
    intro part hMem
    exact listedHashes_ihavePacket (h.few part hMem)
  rw [List.flatMap_def, hEach, h.flatten]

end

end PeerNet
