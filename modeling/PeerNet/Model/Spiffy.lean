import PeerNet.Model.Sha
import PeerNet.Model.Wire

/-
  `spiffy.c`: sending through the simulated router.

  With the router enabled every datagram gets a head of 16
  bytes in front that says who sends it to whom, all of them
  go to the router, and what comes from the router has the
  sender in its head. The addresses and ports of the head are
  as they lie in memory.

  `malloc` succeeds, and all addresses are `AF_INET`. What
  `sendto` and `recvfrom` do is an argument.

  Main declarations:
    * `SpiffyHeader`
    * `Spiffy.init`
    * `Spiffy.sendto`
    * `Spiffy.recvfrom`
-/

------------------------------------------------------------
-- The Head
------------------------------------------------------------

namespace PeerNet

/- `spiffy_header`, its ID in host order. -/
structure SpiffyHeader where
  id : UInt32
  lSrcAddr : UInt32
  lDestAddr : UInt32
  lSrcPort : UInt16
  lDestPort : UInt16
deriving DecidableEq

/- `sizeof(spiffy_header)`. -/
abbrev spiffyHeaderSize : Nat := 16

/- A 16-bit number in memory. -/
def shortBytes
    (x : UInt16) : Bytes :=
  [x.toUInt8, (x >>> 8).toUInt8]

def loadShort
    (bytes : Bytes) : UInt16 :=
  (bytes.getD 0 0).toUInt16 |||
    ((bytes.getD 1 0).toUInt16 <<< 8)

/- The head as it is copied in front of a datagram. -/
def SpiffyHeader.encode
    (h : SpiffyHeader) : Bytes :=
  BigEndian.write 4 h.id.toNat ++
    (wordBytes h.lSrcAddr).toList ++
      (wordBytes h.lDestAddr).toList ++
        shortBytes h.lSrcPort ++ shortBytes h.lDestPort

/- The head in front of some bytes. -/
def SpiffyHeader.decode
    (buf : Bytes) : SpiffyHeader where
  id := UInt32.ofNat (BigEndian.read (buf.take 4))
  lSrcAddr := loadWord (buf.drop 4)
  lDestAddr := loadWord (buf.drop 8)
  lSrcPort := loadShort (buf.drop 12)
  lDestPort := loadShort (buf.drop 14)

/- The sender and the receiver it names. -/
def SpiffyHeader.src
    (h : SpiffyHeader) : Addr :=
  ⟨h.lSrcAddr, h.lSrcPort⟩

def SpiffyHeader.dest
    (h : SpiffyHeader) : Addr :=
  ⟨h.lDestAddr, h.lDestPort⟩

end PeerNet

------------------------------------------------------------
-- Sending and Receiving
------------------------------------------------------------

namespace PeerNet

/- The globals of `spiffy.c`. -/
structure Spiffy where
  enabled : Bool
  nodeID : Int
  src : Addr
  router : Addr
deriving DecidableEq

namespace Spiffy

/- `spiffy_init`, for a router address that can be read. -/
def init
    (nodeID : Int)
    (addr : Addr)
    (router : Option Addr) : Spiffy where
  enabled := router.isSome
  nodeID := nodeID
  src := addr
  router := router.getD ⟨0, 0⟩

/- The datagram `spiffy_sendto` makes, and where it goes. -/
def frame
    (s : Spiffy)
    (msg : Bytes)
    (dest : Addr) : Bytes × Addr :=
  if s.enabled then
    (SpiffyHeader.encode
        { id := UInt32.ofInt s.nodeID
          lSrcAddr := s.src.sAddr
          lDestAddr := dest.sAddr
          lSrcPort := s.src.sinPort
          lDestPort := dest.sinPort } ++
      msg, s.router)
  else
    (msg, dest)

/- What `spiffy_sendto` makes of the result of `sendto`. -/
def sent
    (s : Spiffy)
    (result : Int) : Int :=
  if s.enabled ∧ 0 < result then
    result - spiffyHeaderSize
  else
    result

/-
  `spiffy_recvfrom`, for a datagram from the socket: the
  result, the bytes in the buffer of `size` bytes, and the
  sender. The buffer is filled from behind the head, whatever
  the datagram reached.
-/
def recvfrom
    (s : Spiffy)
    (env : Env)
    (size : Nat)
    (src : Addr)
    (datagram : Bytes) : Int × Bytes × Addr :=
  if s.enabled then
    let read := datagram.take (size + spiffyHeaderSize)
    let newbuf := env.fill (size + spiffyHeaderSize) read
    if read = [] then
      (0, [], src)
    else
      (read.length - spiffyHeaderSize,
        newbuf.drop spiffyHeaderSize,
        (SpiffyHeader.decode newbuf).src)
  else
    ((datagram.take size).length, datagram.take size, src)

end Spiffy

/-
  `process_inbound_udp` on a datagram from the socket. Less
  than a head makes it return; the bytes behind what was read
  are not looked at.
-/
def inboundUdp
    (env : Env)
    (s : Spiffy)
    (src : Addr)
    (datagram : Bytes) : Prog Unit :=
  let (result, buf, sender) :=
    s.recvfrom env bufLen src datagram
  let bytesRead := toShort result
  if bytesRead ≤ 0 ∨ bytesRead < packetHeadSize then
    pure ()
  else
    processInboundUdp env sender (buf.take bytesRead.toNat)

end PeerNet
