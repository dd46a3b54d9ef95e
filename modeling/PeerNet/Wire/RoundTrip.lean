import PeerNet.Model.Wire
import PeerNet.Packets.Cutting

/-
  Encoding and decoding packets.

  A head and a payload whose length the head tells are
  decoded to what was encoded, and the bytes of a datagram
  that passes the checks are those that its packet is
  encoded to. The payload has to fit into the 1500 bytes a
  receiver reads.

  Main declarations:
    * `decodeHead_encodeHead`
    * `encodeHead_decodeHead`
    * `Framed.readPacket`
    * `Checked.framed`
    * `wire_round_trip`
-/

------------------------------------------------------------
-- Heads
------------------------------------------------------------

namespace PeerNet

section

variable {buf : Bytes}

@[simp] theorem length_encodeHead
    (h : PacketHead) :
    (encodeHead h).length = packetHeadSize := by
  simp [encodeHead]

@[simp] theorem ofNat_read_short
    (x : UInt16) :
    UInt16.ofNat
        (BigEndian.read (BigEndian.write 2 x.toNat)) =
      x := by
  apply UInt16.toNat_inj.mp
  have hSmall : x.toNat < 65536 := x.toNat_lt
  simp only [BigEndian.read_write, UInt16.toNat_ofNat']
  omega

@[simp] theorem ofNat_read_int
    (x : UInt32) :
    UInt32.ofNat
        (BigEndian.read (BigEndian.write 4 x.toNat)) =
      x := by
  apply UInt32.toNat_inj.mp
  have hSmall : x.toNat < 4294967296 := x.toNat_lt
  simp only [BigEndian.read_write, UInt32.toNat_ofNat']
  omega

/- A head is decoded to what was encoded. -/
theorem decodeHead_encodeHead
    (h : PacketHead)
    (payload : Bytes) :
    decodeHead (encodeHead h ++ payload) = h := by
  simp [decodeHead, encodeHead, fieldAt, List.drop_append,
    List.getElem?_append, List.drop_of_length_le]

/- A field that was read is written as the bytes it had. -/
theorem write_fieldAt
    {offset size : Nat}
    (hFits : offset + size ≤ buf.length) :
    BigEndian.write size (fieldAt offset size buf) =
      (buf.drop offset).take size := by
  have hSize : ((buf.drop offset).take size).length = size := by
    simp
    omega
  have hBytes :=
    BigEndian.write_read ((buf.drop offset).take size)
  rw [hSize] at hBytes
  exact hBytes

theorem write_short
    {offset : Nat}
    (hFits : offset + 2 ≤ buf.length) :
    BigEndian.write 2
        (UInt16.ofNat (fieldAt offset 2 buf)).toNat =
      (buf.drop offset).take 2 := by
  rw [← write_fieldAt hFits, UInt16.toNat_ofNat']
  exact BigEndian.write_mod 2 _

theorem write_int
    {offset : Nat}
    (hFits : offset + 4 ≤ buf.length) :
    BigEndian.write 4
        (UInt32.ofNat (fieldAt offset 4 buf)).toNat =
      (buf.drop offset).take 4 := by
  rw [← write_fieldAt hFits, UInt32.toNat_ofNat']
  exact BigEndian.write_mod 4 _

/- One byte, as a part of the buffer. -/
theorem getD_eq_take
    {offset : Nat}
    (hFits : offset < buf.length) :
    [buf.getD offset 0] = (buf.drop offset).take 1 := by
  have hByte : buf.getD offset 0 = buf[offset] := by
    simp [hFits]
  rw [hByte, List.drop_eq_getElem_cons hFits,
    List.take_succ_cons, List.take_zero]

/- The bytes of a head are those it was decoded from. -/
theorem encodeHead_decodeHead
    (hFits : 16 ≤ buf.length) :
    encodeHead (decodeHead buf) = buf.take 16 := by
  have hCut :
      buf.take 16 =
        buf.take 2 ++ (buf.drop 2).take 1 ++
          (buf.drop 3).take 1 ++ (buf.drop 4).take 2 ++
          (buf.drop 6).take 2 ++ (buf.drop 8).take 4 ++
          (buf.drop 12).take 4 := by
    simp only [← List.take_add]
  simp only [decodeHead, encodeHead]
  rw [write_short (by omega), write_short (by omega),
    write_short (by omega), write_int (by omega),
    write_int (by omega), getD_eq_take (by omega),
    getD_eq_take (by omega), List.drop_zero, hCut]

end

end PeerNet

------------------------------------------------------------
-- Datagrams
------------------------------------------------------------

namespace PeerNet

/- A head that agrees with the payload behind it. -/
structure Framed
    (p : Packet) : Prop where
  magicNum : p.header.magicNum = 15441
  version : p.header.version = 1
  headerLen : p.header.headerLen = 16
  packetLen : p.header.packetLen.toNat = 16 + p.buf.length

/- What `process_inbound_udp` knows of a packet. -/
structure Checked
    (buf : Bytes)
    (p : Packet) : Prop where
  header : p.header = decodeHead buf
  low : 16 ≤ buf.length
  packetLen : p.header.packetLen.toNat = buf.length
  magicNum : p.header.magicNum = 15441
  version : p.header.version = 1
  length : p.header.headerLen ≤ p.header.packetLen
  payload :
    p.buf =
      (buf.drop p.header.headerLen.toNat).take
        (payloadLen p.header).toNat

section

variable {buf : Bytes} {p : Packet} {a : Addr} {n : Node}

theorem packetNew_whole
    (h : p.Whole) :
    packetNew p a n = .ok ⟨⟩ (n.push ⟨p.copy, a⟩) := by
  have hIs :
      packetNew p a = modify (Node.push ⟨p.copy, a⟩) := by
    unfold packetNew
    dsimp only
    rw [if_neg (Nat.not_lt.mpr h.1),
      if_neg (Nat.not_lt.mpr h.2)]
    rfl
  rw [hIs]
  rfl

theorem Framed.whole
    (h : Framed p) :
    p.Whole := by
  unfold Packet.Whole
  rw [h.packetLen]
  constructor
  · exact Nat.le_add_right 16 _
  · simp

theorem Framed.copy
    (h : Framed p) :
    p.copy = p := by
  have hLength :
      p.header.packetLen.toNat - packetHeadSize =
        p.buf.length := by
    rw [h.packetLen]
    exact Nat.add_sub_cancel_left 16 _
  unfold Packet.copy Packet.payload
  rw [hLength, List.take_length]

theorem Framed.payloadLen
    (h : Framed p) :
    payloadLen p.header = p.buf.length := by
  unfold PeerNet.payloadLen
  rw [h.packetLen, h.headerLen]
  have hHead : (16 : UInt16).toNat = 16 := by decide
  rw [hHead]
  push_cast
  omega

/- A packet that fits is read as it was sent. -/
theorem Framed.readPacket
    (h : Framed p)
    (hFits : p.buf.length ≤ maxDataSize) :
    readPacket (received (encodePacket p)) =
      .ok (some p) := by
  have hSize : p.buf.length ≤ 1484 := hFits
  have hLength :
      (encodePacket p).length = 16 + p.buf.length := by
    simp [encodePacket]
  have hAll : received (encodePacket p) = encodePacket p := by
    apply List.take_of_length_le
    rw [hLength]
    exact Nat.add_le_add_left hSize 16
  have hHead : decodeHead (encodePacket p) = p.header :=
    decodeHead_encodeHead p.header p.buf
  have hPass : passesChecks (encodePacket p) = true := by
    unfold passesChecks
    rw [hHead, h.packetLen, hLength, h.magicNum, h.version]
    simp
  have hPayload :
      readPayload p.header (encodePacket p) = .ok p.buf := by
    unfold readPayload
    rw [h.payloadLen, h.headerLen, if_neg (by omega)]
    simp [encodePacket]
  unfold PeerNet.readPacket
  rw [hAll, if_pos hPass, hHead, hPayload]

theorem passesChecks_iff :
    passesChecks buf = true ↔
      16 ≤ buf.length ∧
        (decodeHead buf).packetLen.toNat = buf.length ∧
        (decodeHead buf).magicNum = 15441 ∧
        (decodeHead buf).version = 1 := by
  simp [passesChecks, and_assoc]

/- The packets that are dispatched. -/
theorem readPacket_eq_some :
    readPacket buf = .ok (some p) ↔ Checked buf p := by
  unfold readPacket
  constructor
  · intro hRead
    by_cases hPass : passesChecks buf = true
    · rw [if_pos hPass] at hRead
      rcases passesChecks_iff.mp hPass with
        ⟨hLow, hLength, hMagic, hVersion⟩
      unfold readPayload at hRead
      by_cases hNeg : payloadLen (decodeHead buf) < 0
      · rw [if_pos hNeg] at hRead
        cases hRead
      · rw [if_neg hNeg] at hRead
        have hIs := Option.some.inj (Except.ok.inj hRead)
        subst hIs
        have hOrder :
            (decodeHead buf).headerLen ≤
              (decodeHead buf).packetLen := by
          unfold payloadLen at hNeg
          rw [UInt16.le_iff_toNat_le]
          omega
        exact ⟨rfl, hLow, hLength, hMagic, hVersion, hOrder,
          rfl⟩
    · rw [if_neg hPass] at hRead
      cases hRead
  · intro h
    have hLength := h.packetLen
    have hMagic := h.magicNum
    have hVersion := h.version
    have hOrder := h.length
    have hPayload := h.payload
    rw [h.header] at hLength hMagic hVersion hOrder hPayload
    rw [UInt16.le_iff_toNat_le] at hOrder
    have hNeg : ¬ payloadLen (decodeHead buf) < 0 := by
      unfold payloadLen
      omega
    rw [if_pos (passesChecks_iff.mpr
      ⟨h.low, hLength, hMagic, hVersion⟩)]
    unfold readPayload
    rw [if_neg hNeg, ← hPayload, ← h.header]

/- Sixteen bytes of head: the datagram is what was framed. -/
theorem Checked.framed
    (h : Checked buf p)
    (hHead : p.header.headerLen = 16) :
    Framed p ∧ encodePacket p = buf := by
  have hSixteen : p.header.headerLen.toNat = 16 := by
    rw [hHead]
    decide
  have hLow := h.low
  have hRest :
      (payloadLen p.header).toNat =
        (buf.drop 16).length := by
    unfold payloadLen
    rw [h.packetLen, hSixteen, List.length_drop]
    omega
  have hPayload : p.buf = buf.drop 16 := by
    rw [h.payload, hSixteen, hRest, List.take_length]
  constructor
  · refine ⟨h.magicNum, h.version, hHead, ?_⟩
    rw [h.packetLen, hPayload, List.length_drop]
    omega
  · unfold encodePacket
    rw [h.header, encodeHead_decodeHead h.low, hPayload,
      List.take_append_drop]

/- `packet_new` queues these bytes, wherever they go. -/
def Queues
    (p : Packet)
    (bytes : Bytes) : Prop :=
  ∀ (a : Addr) (n : Node),
    ∃ d,
      packetNew p a n = .ok ⟨⟩ (n.push d) ∧
        d.destAddr = a ∧ encodePacket d.packet = bytes

theorem Framed.queues
    (h : Framed p) :
    Queues p (encodePacket p) := by
  intro a n
  refine ⟨⟨p, a⟩, ?_, rfl, rfl⟩
  rw [packetNew_whole h.whole, h.copy]

/- A head from `init_packet_head`, and a payload. -/
def wirePacket
    (type : UInt8)
    (seqNum ackNum : Int)
    (payload : Bytes) : Packet where
  header :=
    initPacketHead type 16 (16 + payload.length) seqNum
      ackNum
  buf := payload

theorem framed_wirePacket
    (type : UInt8)
    (seqNum ackNum : Int)
    {payload : Bytes}
    (hFits : payload.length ≤ maxDataSize) :
    Framed (wirePacket type seqNum ackNum payload) where
  magicNum := rfl
  version := rfl
  headerLen := rfl
  packetLen :=
    dataPacket_packetLen (i := 0) hFits

/- A 32-bit number survives `int` and `htonl`. -/
theorem ofInt_toInt32
    (x : UInt32) :
    UInt32.ofInt (toInt32 x) = x := by
  have hSmall : x.toNat < 2 ^ 32 := x.toNat_lt
  have hBack : toInt32 x % 2 ^ 32 = x.toNat := by
    unfold toInt32
    have hMod := Int.bmod_emod (x := x.toNat) (m := 2 ^ 32)
    omega
  apply UInt32.toNat_inj.mp
  unfold UInt32.ofInt
  rw [UInt32.toNat_ofNat', hBack, Int.toNat_natCast,
    Nat.mod_eq_of_lt hSmall]

/- A framed packet that fits is a packet made so. -/
theorem Framed.wirePacket
    (h : Framed p)
    (hFits : p.buf.length ≤ maxDataSize) :
    wirePacket p.header.type (toInt32 p.header.seqNum)
      (toInt32 p.header.ackNum) p.buf = p := by
  have hMade := framed_wirePacket p.header.type
    (toInt32 p.header.seqNum) (toInt32 p.header.ackNum) hFits
  have hLength :
      UInt16.ofInt (16 + p.buf.length) =
        p.header.packetLen := by
    apply UInt16.toNat_inj.mp
    exact hMade.packetLen.trans h.packetLen.symm
  have hHead : UInt16.ofInt 16 = p.header.headerLen := by
    rw [h.headerLen]
    decide
  unfold PeerNet.wirePacket initPacketHead
  rw [hLength, hHead, ofInt_toInt32, ofInt_toInt32,
    ← h.magicNum, ← h.version]

end

/-
  A packet of any type that is dispatched, with any numbers
  and any payload that fits, is read as it was queued; and a
  datagram whose head is 16 bytes long is what its packet is
  queued as.
-/
theorem wire_round_trip :
    (∀ type ≤ typeAck, ∀ (seqNum ackNum : UInt32)
        (payload : Bytes),
      payload.length ≤ 1484 →
        ∃ bytes,
          Queues
              (wirePacket type (toInt32 seqNum)
                (toInt32 ackNum) payload) bytes ∧
            ∃ p,
              readPacket (received bytes) = .ok (some p) ∧
                p.header.type = type ∧
                p.header.seqNum = seqNum ∧
                p.header.ackNum = ackNum ∧
                p.buf = payload) ∧
      ∀ (datagram : Bytes) (p : Packet),
        readPacket (received datagram) = .ok (some p) →
          p.header.headerLen = 16 →
          p.header.type ≤ typeAck →
            Queues
              (wirePacket p.header.type
                (toInt32 p.header.seqNum)
                (toInt32 p.header.ackNum) p.buf)
              (received datagram) := by
  constructor
  · intro type _ seqNum ackNum payload hFits
    have hFramed :=
      framed_wirePacket type (toInt32 seqNum)
        (toInt32 ackNum) hFits
    exact ⟨_, hFramed.queues, _, hFramed.readPacket hFits,
      rfl, ofInt_toInt32 seqNum, ofInt_toInt32 ackNum, rfl⟩
  · intro datagram p hRead hHead _
    have hChecked := readPacket_eq_some.mp hRead
    rcases hChecked.framed hHead with ⟨hFramed, hBytes⟩
    have hFits : p.buf.length ≤ maxDataSize := by
      have hLength := hFramed.packetLen
      have hCut : (received datagram).length ≤ 1500 :=
        List.length_take_le _ _
      rw [hChecked.packetLen] at hLength
      have hSize : maxDataSize = 1484 := by decide
      omega
    rw [hFramed.wirePacket hFits, ← hBytes]
    exact hFramed.queues

end PeerNet
