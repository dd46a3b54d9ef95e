import PeerNet.Wire.RoundTrip

/-
  What the handlers take the payload of a datagram to be.

  `process_inbound_udp` copies the payload from where
  `header_len` says that the head ends, and nobody checks
  that field. `process_ihave` and `add_packet` count the
  length from the end of a 16-byte head instead.

  Main declarations:
    * `handlerDataLen`
    * `payload_consistent_iff`
-/

------------------------------------------------------------
-- Extraction
------------------------------------------------------------

namespace PeerNet

/- The data length that the handler of a packet uses. -/
def handlerDataLen
    (h : PacketHead) : Option Int :=
  if h.type = typeIhave then some (ihaveDatalen h)
  else if h.type = typeGet then some (payloadLen h)
  else if h.type = typeData then some (addPacketDataLen h)
  else none

/-
  The payload is a part of what was received, its length is
  not negative, and the handler uses that length.
-/
def ConsistentPayload
    (buf : Bytes) : Prop :=
  ∃ payload,
    readPayload (decodeHead buf) buf = .ok payload ∧
      payload <:+: buf ∧
      payloadLen (decodeHead buf) = payload.length ∧
      ∀ len ∈ handlerDataLen (decodeHead buf),
        len = payload.length

section

variable {buf datagram : Bytes} {p : Packet}

theorem length_received
    (datagram : Bytes) :
    (received datagram).length ≤ 1500 :=
  List.length_take_le _ _

/- Two handlers count from the end of a 16-byte head. -/
def AssumesHead
    (h : PacketHead) : Prop :=
  h.type = typeIhave ∨ h.type = typeData

/- They use the length behind it. -/
theorem AssumesHead.dataLen
    {h : PacketHead}
    (hType : AssumesHead h)
    (hHigh : h.packetLen.toNat ≤ 1500) :
    handlerDataLen h =
      some ((h.packetLen.toNat : Int) - 16) := by
  unfold handlerDataLen
  rcases hType with hIhave | hData
  · have hShort :
        ihaveDatalen h = h.packetLen.toNat - 16 := by
      unfold ihaveDatalen toShort
      simp only [packetHeadSize]
      omega
    rw [if_pos hIhave, hShort]
  · have hIhave : h.type ≠ typeIhave := by
      rw [hData]
      decide
    have hGet : h.type ≠ typeGet := by
      rw [hData]
      decide
    rw [if_neg hIhave, if_neg hGet, if_pos hData]
    rfl

/- The others use the length of the payload, or none. -/
theorem dataLen_of_not_assumes
    {h : PacketHead}
    {len : Int}
    (hType : ¬ AssumesHead h)
    (hLen : len ∈ handlerDataLen h) :
    len = payloadLen h := by
  unfold AssumesHead at hType
  rw [not_or] at hType
  unfold handlerDataLen at hLen
  rw [if_neg hType.1] at hLen
  split at hLen
  · exact (Option.some.inj hLen).symm
  · rw [if_neg hType.2] at hLen
    cases hLen

/- The bytes that are copied, where there are such. -/
theorem readPayload_slice
    {h : PacketHead}
    (hLength : h.packetLen.toNat = buf.length)
    (hOrder : h.headerLen ≤ h.packetLen) :
    ∃ payload,
      readPayload h buf = .ok payload ∧
        payload <:+: buf ∧
        payloadLen h = payload.length := by
  rw [UInt16.le_iff_toNat_le] at hOrder
  have hNeg : ¬ payloadLen h < 0 := by
    unfold payloadLen
    omega
  unfold readPayload
  rw [if_neg hNeg]
  refine ⟨_, rfl, ?_, ?_⟩
  · exact (List.take_prefix _ _).isInfix.trans
      (List.drop_suffix _ _).isInfix
  · unfold payloadLen
    rw [List.length_take, List.length_drop]
    omega

/-
  The payload is consistent exactly where the head is not
  longer than the datagram, and 16 bytes long for the two
  handlers that assume it.
-/
theorem payload_consistent_iff
    (hPass : passesChecks (received datagram) = true) :
    ConsistentPayload (received datagram) ↔
      (decodeHead (received datagram)).headerLen ≤
          (decodeHead (received datagram)).packetLen ∧
        (AssumesHead (decodeHead (received datagram)) →
          (decodeHead (received datagram)).headerLen =
            16) := by
  have hSize := length_received datagram
  rcases passesChecks_iff.mp hPass with
    ⟨hLow, hLength, -, -⟩
  have hSixteen : (16 : UInt16).toNat = 16 := by decide
  constructor
  · rintro ⟨payload, -, -, hOwn, hUsed⟩
    unfold payloadLen at hOwn
    constructor
    · rw [UInt16.le_iff_toNat_le]
      omega
    · intro hType
      have hLen := hUsed _ (hType.dataLen (by omega))
      apply UInt16.toNat_inj.mp
      omega
  · rintro ⟨hOrder, hHead⟩
    rcases readPayload_slice hLength hOrder with
      ⟨payload, hRead, hPart, hOwn⟩
    refine ⟨payload, hRead, hPart, hOwn, ?_⟩
    intro len hLen
    by_cases hType :
        AssumesHead (decodeHead (received datagram))
    · rw [hType.dataLen (by omega)] at hLen
      rw [← Option.some.inj hLen, ← hOwn]
      unfold payloadLen
      rw [hHead hType, hSixteen]
      rfl
    · rw [dataLen_of_not_assumes hType hLen, hOwn]

end

/- DATA whose head claims to have no bytes. -/
def headlessData : Bytes :=
  encodeHead (initPacketHead typeData 0 16 1 0)

/- DATA with three bytes behind a whole head. -/
theorem payload_consistent_data :
    ConsistentPayload
      (received (encodePacket
        (wirePacket typeData 1 0 [7, 8, 9]))) :=
  (payload_consistent_iff (by decide)).mpr
    ⟨by decide, fun _ => by decide⟩

theorem payload_inconsistent_headless :
    ¬ ∀ datagram : Bytes,
      passesChecks (received datagram) = true →
        ConsistentPayload (received datagram) := by
  intro hClaim
  have hPass : passesChecks (received headlessData) = true := by
    decide
  have hType :
      AssumesHead (decodeHead (received headlessData)) :=
    .inr (by decide)
  have hHead :=
    ((payload_consistent_iff hPass).mp
      (hClaim _ hPass)).2 hType
  have hNone :
      (decodeHead (received headlessData)).headerLen = 0 := by
    decide
  rw [hNone] at hHead
  cases hHead

end PeerNet
