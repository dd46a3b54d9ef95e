import PeerNet.Lib.BigEndian
import PeerNet.Model.Announce

/-
  Datagrams as bytes: what `packet_new` puts into the queue
  and what `process_inbound_udp` makes of the bytes it
  reads.

  A `Packet` holds its numbers in host order; on the wire
  they are in network order, at the offsets of `packet_head`,
  and the payload follows. The receiver takes the payload
  from where `header_len` says the head ends.

  Key definitions include:
    * `encodePacket`
    * `decodeHead`
    * `readPacket`
    * `processInboundUdp`
-/

------------------------------------------------------------
-- The Head on the Wire
------------------------------------------------------------

namespace PeerNet

/- The 16 bytes of a `packet_head`. -/
def encodeHead
    (h : PacketHead) : Bytes :=
  BigEndian.write 2 h.magicNum.toNat ++
    [h.version] ++ [h.type] ++
    BigEndian.write 2 h.headerLen.toNat ++
    BigEndian.write 2 h.packetLen.toNat ++
    BigEndian.write 4 h.seqNum.toNat ++
    BigEndian.write 4 h.ackNum.toNat

/- A number of `size` bytes in network order. -/
def fieldAt
    (offset size : Nat)
    (buf : Bytes) : Nat :=
  BigEndian.read ((buf.drop offset).take size)

/- `memcpy(&p.header, buf, sizeof(packet_head))`. -/
def decodeHead
    (buf : Bytes) : PacketHead where
  magicNum := UInt16.ofNat (fieldAt 0 2 buf)
  version := buf.getD 2 0
  type := buf.getD 3 0
  headerLen := UInt16.ofNat (fieldAt 4 2 buf)
  packetLen := UInt16.ofNat (fieldAt 6 2 buf)
  seqNum := UInt32.ofNat (fieldAt 8 4 buf)
  ackNum := UInt32.ofNat (fieldAt 12 4 buf)

/- The buffer that `packet_new` fills, for a queued packet. -/
def encodePacket
    (p : Packet) : Bytes :=
  encodeHead p.header ++ p.buf

end PeerNet

------------------------------------------------------------
-- Reading a Datagram
------------------------------------------------------------

namespace PeerNet

/- `BUFLEN`. -/
abbrev bufLen : Nat := 1500

/- `spiffy_recvfrom`: what does not fit is cut off. -/
def received
    (datagram : Bytes) : Bytes :=
  datagram.take bufLen

/- The checks of `process_inbound_udp`. -/
def passesChecks
    (buf : Bytes) : Bool :=
  packetHeadSize ≤ buf.length &&
    (decodeHead buf).packetLen.toNat == buf.length &&
    (decodeHead buf).magicNum == 15441 &&
    (decodeHead buf).version == 1

/- `ntohs(packet_len) - ntohs(header_len)`, an `int`. -/
def payloadLen
    (h : PacketHead) : Int :=
  h.packetLen.toNat - h.headerLen.toNat

/-
  `p.buf`: a negative length is converted to a huge one,
  which is more than any buffer holds.
-/
def readPayload
    (h : PacketHead)
    (buf : Bytes) : Except Fault Bytes :=
  if payloadLen h < 0 then
    .error .bufferOverflow
  else
    .ok ((buf.drop h.headerLen.toNat).take
      (payloadLen h).toNat)

/- The packet that is dispatched, if the checks pass. -/
def readPacket
    (buf : Bytes) : Except Fault (Option Packet) :=
  if passesChecks buf then
    match readPayload (decodeHead buf) buf with
    | .error f => .error f
    | .ok payload => .ok (some ⟨decodeHead buf, payload⟩)
  else
    .ok none

/- `switch (p.header.type)`. -/
def dispatch
    (env : Env)
    (src : Addr)
    (p : Packet) : Prog Unit :=
  if p.header.type = typeWhohas then
    discard (processWhohas env src p)
  else if p.header.type = typeIhave then
    discard (processIhave src p)
  else if p.header.type = typeGet then
    discard (processGet env src p)
  else if p.header.type = typeData then
    discard (processData env src p)
  else if p.header.type = typeAck then
    discard (processAck src p)
  else
    pure ()

/- `process_inbound_udp`. -/
def processInboundUdp
    (env : Env)
    (src : Addr)
    (datagram : Bytes) : Prog Unit := do
  match ← lift (readPacket (received datagram)) with
  | none => pure ()
  | some p => dispatch env src p

end PeerNet
