import PeerNet.Packets.Slots
import PeerNet.Wire.Answers

/-
  A WHOHAS from the requesting peer to the one it asks.

  `send_whohas` puts the whole download list into one
  packet. Up to 74 hashes fit into the 1500 bytes that a
  receiver reads; a longer list is cut off and dropped, or
  its length wraps and the count byte no longer tells it.

  Main declarations:
    * `sendWhohas_queues`
    * `RoundTrips`
    * `whohas_round_trip_iff`
-/

------------------------------------------------------------
-- Hashes Asked For
------------------------------------------------------------

namespace PeerNet

open Prog

/- The hashes `process_whohas` calls `has_chunk` with. -/
def askedHashes
    (lookup : Hash → Except Fault Int)
    (buf : Bytes) : List Hash :=
  match whohasScan lookup buf .init with
  | .ok _ s => s.asked
  | .error _ s => s.asked

/-
  The datagram is accepted as a WHOHAS, and its receiver
  looks these hashes up in this order, unless `has_chunk`
  does not return for one of them.
-/
def RoundTrips
    (bytes : Bytes)
    (hashes : List Hash) : Prop :=
  ∃ p,
    readPacket (received bytes) = .ok (some p) ∧
      p.header.type = typeWhohas ∧
      ∀ lookup,
        askedHashes lookup p.buf = upToFailure lookup hashes

section

variable {lookup : Hash → Except Fault Int}
variable {buf : Bytes} {count : Nat}

/- The loop asks at most once a round. -/
theorem whohasLoop_asks
    (i : Nat)
    (scan : WhohasScan) :
    wp (whohasLoop lookup buf count i)
      (fun _ s => s.asked.length ≤ scan.asked.length + count)
      (fun _ s => s.asked.length ≤ scan.asked.length + count)
      scan := by
  induction count generalizing i scan with
  | zero => exact Nat.le_refl _
  | succ count ih =>
      by_cases hShort : buf.length < 4 + 20 * i + 20
      · rw [whohasLoop_short hShort]
        omega
      have hInside : 4 + 20 * i + 20 ≤ buf.length := by
        omega
      cases hCall : lookup (payloadHash buf i) with
      | error f =>
          rw [whohasLoop_failed hInside hCall]
          simp [WhohasScan.ask]
      | ok id =>
          rw [whohasLoop_answered hInside hCall]
          have hNext := ih (i + 1)
            (scan.answered i (payloadHash buf i) id)
          rw [WhohasScan.answered_asked,
            List.length_append, List.length_singleton]
            at hNext
          apply wp_mono hNext
          · intro _ s hs
            omega
          · intro _ s hs
            omega

theorem askedHashes_of_wp
    {P : List Hash → Prop}
    (h :
      wp (whohasScan lookup buf) (fun _ s => P s.asked)
        (fun _ s => P s.asked) .init) :
    P (askedHashes lookup buf) := by
  unfold wp at h
  unfold askedHashes
  cases hEnd : whohasScan lookup buf .init with
  | ok _ s =>
      rw [hEnd] at h
      exact h
  | error f s =>
      rw [hEnd] at h
      exact h

theorem length_askedHashes
    (lookup : Hash → Except Fault Int)
    (buf : Bytes) :
    (askedHashes lookup buf).length ≤ 127 := by
  apply askedHashes_of_wp (P := fun asked =>
    asked.length ≤ 127)
  cases buf with
  | nil => exact Nat.zero_le 127
  | cons numChunks rest =>
      have hCount := whohasCount_le numChunks
      apply wp_mono (whohasLoop_asks 0 .init)
      · intro _ s hs
        exact hs.trans (by simpa [WhohasScan.init])
      · intro _ s hs
        exact hs.trans (by simpa [WhohasScan.init])

/- A well-formed payload is asked for as it is listed. -/
theorem WellFormedList.askedHashes
    (h : WellFormedList buf count)
    (lookup : Hash → Except Fault Int) :
    askedHashes lookup buf =
      upToFailure lookup (payloadHashes buf count) := by
  apply askedHashes_of_wp (P := fun asked =>
    asked = upToFailure lookup (payloadHashes buf count))
  apply wp_mono (whohasScan_spec h)
  · rintro _ s ⟨hReturn, rfl⟩
    exact (upToFailure_eq hReturn).symm
  · rintro _ s ⟨-, hAsked⟩
    exact hAsked

end

end PeerNet

------------------------------------------------------------
-- The Flood
------------------------------------------------------------

namespace PeerNet

open Prog

section

variable {env : Env} {n m : Node} {v : Int}

/- The hashes of the download list, in order. -/
def downloadHashes
    (c : BtConfig) : List Hash :=
  (downloadChunks c).map fun chunk => chunk.hash

@[simp] theorem length_downloadHashes
    (c : BtConfig) :
    (downloadHashes c).length =
      (downloadChunks c).length := by
  simp [downloadHashes]

/- Where it is counted right, the list fills its packet. -/
theorem whohasPacket_buf
    {c : BtConfig}
    (hCount : c.numChunks = (downloadChunks c).length) :
    (whohasPacket env c).buf =
      listing (UInt8.ofInt (downloadChunks c).length)
        (downloadHashes c) := by
  have hFlat :
      (downloadChunks c).flatMap
          (fun chunk => chunk.hash.toList) =
        (downloadHashes c).flatMap
          (fun hash => hash.toList) := by
    simp [downloadHashes, List.flatMap_map]
  have hLength :=
    length_listing
      (UInt8.ofInt (downloadChunks c).length)
      (downloadHashes c)
  rw [length_downloadHashes] at hLength
  unfold whohasPacket
  dsimp only
  rw [hCount, hFlat, Int.toNat_natCast]
  apply fill_full
  exact hLength

/- Copies of one packet are queued, if it has its length. -/
def Flooded
    (p : Packet)
    (n m : Node) : Prop :=
  ∃ dests : List Addr,
    m.queue =
        n.queue ++
          (dests.map fun a => (⟨p.copy, a⟩ : Datagram)) ∧
      (dests ≠ [] → p.Whole)

theorem Flooded.refl
    (p : Packet)
    (n : Node) :
    Flooded p n n :=
  ⟨[], by simp, fun h => absurd rfl h⟩

theorem Flooded.push
    {p : Packet}
    (h : Flooded p n m)
    (hWhole : p.Whole)
    (a : Addr) :
    Flooded p n (m.push ⟨p.copy, a⟩) := by
  rcases h with ⟨dests, hQueue, -⟩
  refine ⟨dests ++ [a], ?_, fun _ => hWhole⟩
  simp [Node.push, hQueue]

/- What holds of every datagram of a flood. -/
theorem Flooded.all_iff
    {p : Packet}
    {P : Bytes → Prop}
    (h : Flooded p n m)
    (hSent : n.queue.length < m.queue.length) :
    (∀ d ∈ m.queue.drop n.queue.length,
        P (encodePacket d.packet)) ↔
      P (encodePacket p.copy) := by
  rcases h with ⟨dests, hQueue, -⟩
  rw [hQueue, List.length_append, List.length_map] at hSent
  rw [hQueue, List.drop_left, List.forall_mem_map]
  constructor
  · intro hAll
    have hSome : dests ≠ [] :=
      List.ne_nil_of_length_pos (by omega)
    rcases List.exists_mem_of_ne_nil dests hSome with
      ⟨a, ha⟩
    exact hAll a ha
  · exact fun hOne _ _ => hOne

/- What `send_whohas` queues is its WHOHAS packet. -/
theorem sendWhohas_floods
    (env : Env)
    (n : Node) :
    wp (sendWhohas env)
      (fun _ m => Flooded (whohasPacket env n.config) n m)
      (fun _ _ => True) n := by
  unfold sendWhohas
  rw [wp_bind, wp_get]
  dsimp only
  rw [wp_ite]
  refine ⟨fun _ => .refl _ n, fun _ => ?_⟩
  rw [wp_bind, wp_timeMillis, wp_ite]
  refine ⟨fun _ => .refl _ n, fun _ => ?_⟩
  rw [wp_bind, wp_timeMillis, wp_bind, wp_modify, wp_ite]
  refine ⟨fun _ => trivial, fun _ => ?_⟩
  rw [wp_bind]
  apply wp_forM
  · intro peer _ m hm
    rw [wp_ite]
    refine ⟨fun _ => ?_, fun _ => hm⟩
    apply wp_packetNew_copy
    · exact fun hWhole => hm.push hWhole _
    · exact fun _ => trivial
    · exact fun _ => trivial
  · exact .refl _ n

theorem sendWhohas_queues
    (hFlood : sendWhohas env n = .ok v m) :
    Flooded (whohasPacket env n.config) n m := by
  have hSpec := sendWhohas_floods env n
  unfold wp at hSpec
  rw [hFlood] at hSpec
  exact hSpec

/- The count byte, written from an `int`. -/
theorem ofInt_natCast
    (count : Nat) :
    UInt8.ofInt count = UInt8.ofNat count := by
  apply UInt8.toNat_inj.mp
  unfold UInt8.ofInt
  rw [UInt8.toNat_ofNat', UInt8.toNat_ofNat']
  omega

/- The WHOHAS of a short list is well formed. -/
theorem wellFormed_whohasPacket
    (env : Env)
    {c : BtConfig}
    (hCount : c.numChunks = (downloadChunks c).length)
    (hFew : (downloadChunks c).length ≤ maxIhaveChunks) :
    WellFormedList (whohasPacket env c).buf
      (downloadChunks c).length where
  fits := hFew
  first := by
    rw [whohasPacket_buf hCount, ofInt_natCast]
    rfl
  length := by
    rw [whohasPacket_buf hCount, length_listing,
      length_downloadHashes]

theorem framed_whohasPacket
    (env : Env)
    {c : BtConfig}
    (hCount : c.numChunks = (downloadChunks c).length)
    (hFew : (downloadChunks c).length ≤ maxIhaveChunks) :
    Framed (whohasPacket env c) := by
  have hMax : maxIhaveChunks = 74 := by decide
  have hData : maxDataSize = 1484 := by decide
  have hLength :=
    (wellFormed_whohasPacket env hCount hFew).length
  apply framed_initPacketHead typeWhohas
  · change _ = 16 + ((whohasPacket env c).buf.length : Int)
    rw [hLength, hCount]
    push_cast
    omega
  · change (whohasPacket env c).buf.length ≤ _
    omega

/- A list of at most 74 hashes arrives. -/
theorem roundTrips_short
    (env : Env)
    {c : BtConfig}
    (hCount : c.numChunks = (downloadChunks c).length)
    (hFew : (downloadChunks c).length ≤ maxIhaveChunks) :
    RoundTrips (encodePacket (whohasPacket env c).copy)
      (downloadHashes c) := by
  have hMax : maxIhaveChunks = 74 := by decide
  have hData : maxDataSize = 1484 := by decide
  have hForm := wellFormed_whohasPacket env hCount hFew
  have hFramed := framed_whohasPacket env hCount hFew
  have hFits : (whohasPacket env c).buf.length ≤ 1484 := by
    rw [hForm.length]
    omega
  have hHashes :
      payloadHashes (whohasPacket env c).buf
          (downloadChunks c).length =
        downloadHashes c := by
    rw [whohasPacket_buf hCount, ← length_downloadHashes]
    exact payloadHashes_listing _ _
  rw [hFramed.copy]
  refine ⟨_, hFramed.readPacket hFits, rfl, ?_⟩
  intro lookup
  rw [hForm.askedHashes, hHashes]

/- What is cut off is not the head. -/
theorem decodeHead_received
    (h : PacketHead)
    (payload : Bytes) :
    decodeHead (received (encodeHead h ++ payload)) = h := by
  have hCut :
      received (encodeHead h ++ payload) =
        encodeHead h ++
          payload.take (bufLen - packetHeadSize) := by
    have hRoom : (encodeHead h).length ≤ bufLen := by
      rw [length_encodeHead]
      decide
    unfold received
    rw [List.take_append, length_encodeHead,
      List.take_of_length_le hRoom]
  rw [hCut]
  exact decodeHead_encodeHead h _

/- A packet that is accepted is not longer than the buffer. -/
theorem packetLen_of_read
    {p q : Packet}
    (hRead :
      readPacket (received (encodePacket p)) =
        .ok (some q)) :
    p.header.packetLen.toNat ≤ 1500 := by
  have hChecked := readPacket_eq_some.mp hRead
  have hHead : q.header = p.header :=
    hChecked.header.trans (decodeHead_received p.header p.buf)
  have hLength := hChecked.packetLen
  rw [hHead] at hLength
  rw [hLength]
  exact List.length_take_le 1500 _

/- A longer one does not, whatever its length wraps to. -/
theorem not_roundTrips_long
    (env : Env)
    {c : BtConfig}
    (hCount : c.numChunks = (downloadChunks c).length)
    (hMany : maxIhaveChunks < (downloadChunks c).length) :
    ¬ RoundTrips (encodePacket (whohasPacket env c).copy)
      (downloadHashes c) := by
  rintro ⟨p, hRead, -, hAsked⟩
  have hMax : maxIhaveChunks = 74 := by decide
  have hAll :
      askedHashes (fun _ => .ok 0) p.buf =
        downloadHashes c := by
    rw [hAsked]
    exact upToFailure_eq fun _ _ => ⟨0, rfl⟩
  have hBound := length_askedHashes (fun _ => .ok 0) p.buf
  rw [hAll, length_downloadHashes] at hBound
  have hLength :
      (whohasPacket env c).copy.header.packetLen.toNat ≤
        1500 :=
    packetLen_of_read hRead
  have hWritten :
      (whohasPacket env c).copy.header.packetLen.toNat =
        20 + 20 * (downloadChunks c).length := by
    simp only [Packet.copy, whohasPacket, initPacketHead,
      UInt16.ofInt, UInt16.toNat_ofNat', hCount]
    omega
  omega

/-
  Every datagram of a flood arrives as the list it was made
  of exactly where the list has at most 74 chunks.
-/
theorem whohas_round_trip_iff
    (hCount :
      n.config.numChunks =
        (downloadChunks n.config).length)
    (hFlood : sendWhohas env n = .ok v m)
    (hSent : n.queue.length < m.queue.length) :
    (∀ d ∈ m.queue.drop n.queue.length,
        RoundTrips (encodePacket d.packet)
          (downloadHashes n.config)) ↔
      (downloadChunks n.config).length ≤ 74 := by
  have hMax : maxIhaveChunks = 74 := by decide
  have hOne :=
    (sendWhohas_queues hFlood).all_iff hSent (P :=
      fun bytes =>
        RoundTrips bytes (downloadHashes n.config))
  refine hOne.trans ?_
  constructor
  · intro hArrives
    by_contra hMany
    exact not_roundTrips_long env hCount (by omega) hArrives
  · intro hFew
    exact roundTrips_short env hCount (by omega)

end

/- A chunk that is not downloaded yet. -/
def missingChunk : BtChunk where
  id := 0
  hash := Vector.replicate 20 0
  nextExpected := initSeqnum
  downloaded := false
  totalData := 0
  peer := none
  peers := []
  packets := .live []

/- A process that looks for some chunks, 20 s after its start. -/
def seekingNode
    (count : Nat) : Node :=
  { onePeerNode with
    config :=
      { onePeerNode.config with
        numChunks := count
        download := List.range count
        chunk := fun r =>
          if r < count then
            some
              { missingChunk with
                hash := Vector.replicate 20 (UInt8.ofNat r) }
          else none } }

def seekingEnv : Env :=
  { stillEnv with clock := fun _ => 20000 }

/- It floods. -/
theorem seekingNode_floods
    (count : Nat)
    (hFloods :
      (match sendWhohas seekingEnv (seekingNode count) with
        | .ok _ _ => true
        | .error _ _ => false) = true) :
    ∃ v,
      sendWhohas seekingEnv (seekingNode count) =
        .ok v
          (endNode
            (sendWhohas seekingEnv (seekingNode count))) := by
  cases hEnd : sendWhohas seekingEnv (seekingNode count) with
  | ok v m => exact ⟨v, rfl⟩
  | error f m =>
      rw [hEnd] at hFloods
      cases hFloods

/- A WHOHAS for two different hashes arrives as it is. -/
theorem whohas_round_trip_two :
    downloadHashes (seekingNode 2).config =
        [Vector.replicate 20 0, Vector.replicate 20 1] ∧
      ∀ d ∈
          (endNode
            (sendWhohas seekingEnv
              (seekingNode 2))).queue.drop
            (seekingNode 2).queue.length,
        RoundTrips (encodePacket d.packet)
          (downloadHashes (seekingNode 2).config) := by
  rcases seekingNode_floods 2 (by decide) with
    ⟨v, hFlood⟩
  exact ⟨by decide,
    (whohas_round_trip_iff (by decide) hFlood
      (by decide)).mpr (by decide)⟩

/- 75 hashes make a datagram of 1520 bytes. -/
theorem long_whohas_dropped :
    ¬ ∀ (env : Env) (n m : Node) (v : Int),
      n.config.numChunks =
          (downloadChunks n.config).length →
        sendWhohas env n = .ok v m →
        ∀ d ∈ m.queue.drop n.queue.length,
          RoundTrips (encodePacket d.packet)
            (downloadHashes n.config) := by
  intro hClaim
  have hCount :
      (seekingNode 75).config.numChunks =
        (downloadChunks (seekingNode 75).config).length := by
    decide
  rcases seekingNode_floods 75 (by decide +kernel) with
    ⟨v, hFlood⟩
  have hFew :=
    (whohas_round_trip_iff hCount hFlood
      (by decide +kernel)).mp
      (hClaim _ _ _ _ hCount hFlood)
  have hMany :
      (downloadChunks (seekingNode 75).config).length =
        75 := by
    decide
  omega

end PeerNet
