import PeerNet.Receiver.Links
import PeerNet.Wire.Listing

/-
  How `send_ihave` splits a chunk list.

  The number of chunks left goes through a signed `char`
  before it is cut to what one packet holds. Up to 127 it
  comes through, and the packets carry the list. Beyond that
  it comes out too small: where it is negative `malloc`
  fails, and where it is 0 the loop queues an empty packet
  and is where it was.

  Main declarations:
    * `CarriesPart`
    * `SplitsExactly`
    * `sendIhaveLoop_stuck`
    * `ihave_split_iff`
-/

------------------------------------------------------------
-- What the Packets Should Be
------------------------------------------------------------

namespace PeerNet

open Prog

/- `MAX_PACKET_SIZE`. -/
abbrev maxPacketSize : Nat := 1500

/-
  The datagram is an IHAVE for these hashes: it fits, is as
  long as its head says, and has a count byte from which
  `process_ihave` reads their number.
-/
structure CarriesPart
    (dest : Addr)
    (d : Datagram)
    (part : List Hash) : Prop where
  dest : d.destAddr = dest
  type : d.packet.header.type = typeIhave
  fits : (encodePacket d.packet).length ≤ maxPacketSize
  packetLen :
    d.packet.header.packetLen.toNat =
      (encodePacket d.packet).length
  payload : ∃ numChunks : UInt8,
    d.packet.buf = listing numChunks part ∧
      (toChar numChunks.toNat).toNat = part.length

/-
  `send_ihave` returns 0 and queues packets that carry the
  list, part by part.
-/
def SplitsExactly
    (dest : Addr)
    (chunks : List Hash)
    (n : Node) : Prop :=
  wp (sendIhave dest chunks)
    (fun ret m => ret = 0 ∧
      ∃ sent parts, m.queue = n.queue ++ sent ∧
        List.Forall₂ (CarriesPart dest) sent parts ∧
          parts.flatten = chunks)
    (fun _ _ => False) n

section

variable {dest : Addr} {hashes : List Hash} {n : Node}
variable {fuel : Nat}

theorem carriesPart_ihavePacket
    (hFew : hashes.length ≤ maxIhaveChunks) :
    CarriesPart dest ⟨ihavePacket hashes, dest⟩ hashes := by
  have hMax : maxIhaveChunks = 74 := by decide
  have hFramed := framed_ihavePacket hFew
  have hLength :
      (encodePacket (ihavePacket hashes)).length =
        16 + (4 + 20 * hashes.length) := by
    rw [encodePacket, List.length_append, length_encodeHead]
    exact congrArg (16 + ·) (length_listing _ hashes)
  have hBuf :
      (ihavePacket hashes).buf.length =
        4 + 20 * hashes.length :=
    length_listing _ hashes
  refine ⟨rfl, rfl, ?_, ?_, UInt8.ofNat hashes.length, rfl, ?_⟩
  · rw [hLength, maxPacketSize]
    omega
  · rw [hFramed.packetLen, hLength, hBuf]
  · exact whohasCount_ofNat (by omega)

/- A short list is split. -/
theorem splitsExactly_of_few
    (hFew : hashes.length ≤ 127) :
    SplitsExactly dest hashes n := by
  apply wp_mono (sendIhave_spec hFew)
  · rintro ret m ⟨hRet, parts, hParts, rfl⟩
    refine
      ⟨hRet, ihaves dest parts, parts, rfl, ?_,
        hParts.flatten⟩
    rw [ihaves, List.forall₂_map_left_iff,
      List.forall₂_same]
    exact fun part hMem =>
      carriesPart_ihavePacket (hParts.few part hMem)
  · exact fun _ _ h => h

------------------------------------------------------------
-- Lists That Do Not Fit a Char
------------------------------------------------------------

/- One round, where the count is positive or zero. -/
theorem sendIhaveLoop_round
    {Q : Int → Node → Prop}
    {E : Fault → Node → Prop}
    (count : Nat)
    (hSome : hashes ≠ [])
    (hChar : min (toChar hashes.length) maxIhaveChunks = count)
    (hRest : ∀ m,
      wp (sendIhaveLoop dest fuel (hashes.drop count)) Q E m) :
    wp (sendIhaveLoop dest (fuel + 1) hashes) Q E n := by
  have hPart :
      (hashes.take count).length ≤ maxIhaveChunks := by
    rw [List.length_take]
    omega
  have hFramed := framed_ihavePacket hPart
  unfold sendIhaveLoop
  rw [if_neg hSome]
  dsimp only
  rw [hChar, Int.toNat_natCast, if_neg (by omega), wp_bind]
  apply wp_packetNew_copy
  · exact fun _ => hRest _
  · exact fun hTorn => absurd hFramed.whole hTorn
  · exact fun hTorn => absurd hFramed.whole hTorn

/- A multiple of 256 is 0: every round is the same again. -/
theorem sendIhaveLoop_stuck
    (hSome : hashes ≠ [])
    (hZero : hashes.length % 256 = 0)
    (fuel : Nat) :
    wp (sendIhaveLoop dest fuel hashes) (fun _ _ => False)
      (fun fault _ => fault = .hang) n := by
  induction fuel generalizing n with
  | zero => exact rfl
  | succ fuel ih =>
      have hChar :
          min (toChar hashes.length) maxIhaveChunks =
            ((0 : Nat) : Int) := by
        unfold toChar
        omega
      exact sendIhaveLoop_round 0 hSome hChar fun m => ih

/- From 128 on it fails, or hangs at a multiple of 256. -/
theorem sendIhaveLoop_long
    (dest : Addr)
    (hLong : 127 < hashes.length)
    (fuel : Nat)
    (n : Node) :
    wp (sendIhaveLoop dest fuel hashes)
      (fun ret _ => ret = -1)
      (fun fault _ => fault = .hang) n := by
  induction fuel generalizing n hashes with
  | zero => exact rfl
  | succ fuel ih =>
      have hSome : hashes ≠ [] :=
        List.ne_nil_of_length_pos (by omega)
      by_cases hNeg : toChar hashes.length < 0
      · -- The length given to `malloc` is negative.
        unfold sendIhaveLoop
        rw [if_neg hSome]
        dsimp only
        rw [if_pos (by omega)]
        exact rfl
      · -- At most the low byte is taken off.
        have hLow :
            toChar hashes.length =
              (hashes.length % 256 : Nat) := by
          unfold toChar at hNeg ⊢
          omega
        apply sendIhaveLoop_round
          (min (hashes.length % 256) maxIhaveChunks) hSome
        · omega
        · intro m
          apply ih
          rw [List.length_drop]
          unfold toChar at hLow
          omega

end

/- `send_ihave` splits the lists that a `char` can count. -/
theorem ihave_split_iff
    (dest : Addr)
    (chunks : List Hash)
    (n : Node) :
    SplitsExactly dest chunks n ↔ chunks.length ≤ 127 := by
  constructor
  · intro hSplits
    by_contra hLong
    have hEnd :=
      sendIhaveLoop_long dest (Nat.lt_of_not_le hLong)
        (chunks.length + 1) n
    unfold SplitsExactly sendIhave at hSplits
    unfold wp at hSplits hEnd
    cases hLoop :
        sendIhaveLoop dest (chunks.length + 1) chunks n with
    | ok ret m =>
        rw [hLoop] at hSplits hEnd
        dsimp only at hSplits hEnd
        omega
    | error fault m =>
        rw [hLoop] at hSplits
        exact hSplits
  · exact splitsExactly_of_few

/- 128 hashes are one too many. -/
theorem long_list_not_split :
    ¬ ∀ (dest : Addr) (chunks : List Hash) (n : Node),
      SplitsExactly dest chunks n := by
  intro hClaim
  obtain ⟨chunks, hLength⟩ :
      ∃ chunks : List Hash, chunks.length = 128 :=
    ⟨List.replicate 128 (Vector.replicate 20 0),
      List.length_replicate⟩
  have hFew : chunks.length ≤ 127 :=
    (ihave_split_iff ⟨1, 1⟩ chunks onePeerNode).mp
      (hClaim ⟨1, 1⟩ chunks onePeerNode)
  rw [hLength] at hFew
  contradiction

end PeerNet
