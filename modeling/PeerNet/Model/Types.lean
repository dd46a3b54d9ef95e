import PeerNet.Lib.Scanf
import PeerNet.Lib.Wp
import Mathlib.Logic.Function.Basic
import Mathlib.Tactic.Simps.Basic

/-
  The data of one peer: packets, the entries of its peer
  list, the chunks it downloads, the uploads it serves, its
  configuration, its files and its packet queue.

  Pointers are references. A peer entry lives as long as the
  process, so `peer` is a total heap. A download node is
  allocated by `add_receiver_list` and freed by
  `del_receiver_list`, so `chunk` is a partial heap, fresh
  references come from `nextChunk`, and a dangling pointer is
  a reference the heap does not hold. A linked list whose
  nodes nobody else points into is a `List`.

  `recv` and `data` of a packet node are set together, so one
  optional payload stands for both, and `data_len` is its
  length. The counters of `bt_config_t` and of an upload are
  C `int`s, modelled by `Int`: overflowing them is undefined
  in C. The two `char` counters of an upload and the 32-bit
  wire numbers wrap.

  Key definitions include:
    * `Packet`
    * `BtPeer`
    * `BtChunk`
    * `BtSender`
    * `BtConfig`
    * `Node`
-/

------------------------------------------------------------
-- Constants
------------------------------------------------------------

namespace PeerNet

abbrev Bytes := List UInt8

/- A 20-byte SHA-1 value, binary. -/
abbrev Hash := Vector UInt8 20

/- A file name. -/
abbrev Path := List UInt8

/- `BT_CHUNK_SIZE`. -/
abbrev btChunkSize : Nat := 512 * 1024

/- `sizeof(packet_head)`. -/
abbrev packetHeadSize : Nat := 16

/- `MAX_DATA_SIZE`: what is left of 1500 bytes. -/
abbrev maxDataSize : Nat := 1500 - 16

/- `INIT_SEQNUM` and `MAX_SEQNUM`. -/
abbrev initSeqnum : Int := 1

abbrev maxSeqnum : Int := initSeqnum - 1 + btChunkSize

/- `TIMEOUT_MILLIS`, `MAX_TIMEOUTS`. -/
abbrev timeoutMillis : Int := 15 * 1000

abbrev maxTimeouts : Int := 5

/- `BAD_RESET_MILLIS`, `WHOHAS_MILLIS`. -/
abbrev badResetMillis : Int := 30 * 1000

abbrev whohasMillis : Int := 15 * 1000

/- `CC_TIMEOUT`, in seconds. -/
abbrev ccTimeout : Int := 5

/- `SSTHRESH_INIT`. -/
abbrev ssthreshInit : Int := 64

/- The packet types of `udp_utils.h`. -/
abbrev typeWhohas : UInt8 := 0

abbrev typeIhave : UInt8 := 1

abbrev typeGet : UInt8 := 2

abbrev typeData : UInt8 := 3

abbrev typeAck : UInt8 := 4

end PeerNet

------------------------------------------------------------
-- Integer Conversions
------------------------------------------------------------

namespace PeerNet

/- A 32-bit wire number stored in an `int`. -/
def toInt32
    (x : UInt32) : Int :=
  Int.bmod x.toNat (2 ^ 32)

/- An `int` compared with a 32-bit wire number. -/
def toUInt32
    (x : Int) : Nat :=
  (x % 2 ^ 32).toNat

/- What an `int` can hold. -/
structure IsInt
    (x : Int) : Prop where
  low : -2 ^ 31 ≤ x
  high : x < 2 ^ 31

/-
  The sum of two `int`s, in the 32 bits that the machine
  adds them in.
-/
def wrapInt
    (x : Int) : Int :=
  Int.bmod x (2 ^ 32)

/- An `int` stored in a (signed) `char`. -/
def toChar
    (x : Int) : Int :=
  (x + 128) % 256 - 128

/- An `int` stored in a `short`. -/
def toShort
    (x : Int) : Int :=
  (x + 32768) % 65536 - 32768

end PeerNet

------------------------------------------------------------
-- Packets
------------------------------------------------------------

namespace PeerNet

/- The address of a peer: `s_addr` and `sin_port`. -/
structure Addr where
  sAddr : UInt32
  sinPort : UInt16
deriving DecidableEq

/- `packet_head`, its numbers in host order. -/
structure PacketHead where
  magicNum : UInt16
  version : UInt8
  type : UInt8
  headerLen : UInt16
  packetLen : UInt16
  seqNum : UInt32
  ackNum : UInt32
deriving DecidableEq

/- `packet`: the head and the payload in memory. -/
structure Packet where
  header : PacketHead
  buf : Bytes
deriving DecidableEq

/- `init_packet_head`. -/
def initPacketHead
    (type : UInt8)
    (headerLen packetLen seqNum ackNum : Int) :
    PacketHead where
  magicNum := 15441
  version := 1
  type := type
  headerLen := UInt16.ofInt headerLen
  packetLen := UInt16.ofInt packetLen
  seqNum := UInt32.ofInt seqNum
  ackNum := UInt32.ofInt ackNum

/- A node of the packet queue. -/
structure Datagram where
  packet : Packet
  destAddr : Addr
deriving DecidableEq

end PeerNet

------------------------------------------------------------
-- Peers, Chunks and Uploads
------------------------------------------------------------

namespace PeerNet

/- A pointer to an entry of the peer list. -/
abbrev PeerRef := Nat

/- A pointer to a node of the download list. -/
abbrev ChunkRef := Nat

/- `bt_peer_t`. -/
structure BtPeer where
  id : Int
  downloading : Bool
  consecTimeouts : Int
  badTime : Int
  lastResponse : Int
  chunk : Option ChunkRef
  addr : Addr
deriving DecidableEq

/- A node of `bt_packet_list`. -/
structure BtPacket where
  seqNum : Int
  data : Option Bytes
deriving DecidableEq

/- The `recv` flag. -/
def BtPacket.recv
    (node : BtPacket) : Bool :=
  node.data.isSome

/-
  The `packets` field of a chunk: a list of nodes, or a
  pointer to nodes that `del_packet_list` has freed.
-/
inductive BtPackets where
  | live (nodes : List BtPacket)
  | freed
deriving DecidableEq

/- `bt_chunk_list`. -/
structure BtChunk where
  id : Int
  hash : Hash
  nextExpected : Int
  downloaded : Bool
  totalData : Nat
  peer : Option PeerRef
  peers : List PeerRef
  packets : BtPackets
deriving DecidableEq

/- The `state` flag of an upload. -/
inductive CcState where
  | start
  | avoid
deriving DecidableEq

/- `bt_sender_list`; `packets` may be `NULL`, as its entries. -/
structure BtSender where
  hash : Hash
  packets : Option (List (Option Packet))
  numPackets : Int
  lastAcked : Int
  lastSent : Int
  windowSize : Int
  recvd : Int
  ssthresh : Int
  state : CcState
  retransmit : Int
  sentTime : Int
  dropped : Int
  peer : PeerRef
deriving DecidableEq

end PeerNet

------------------------------------------------------------
-- Configuration and Files
------------------------------------------------------------

namespace PeerNet

/- `bt_config_t` and the objects its pointers reach. -/
structure BtConfig where
  chunkFile : Path
  hasChunkFile : Path
  outputFile : Path
  getChunkFile : Path
  maxConn : Int
  identity : Int
  peers : List PeerRef
  curDownload : Int
  numChunks : Int
  numDownloaded : Int
  download : List ChunkRef
  upload : List BtSender
  lastWhohas : Int
  peer : PeerRef → BtPeer
  chunk : ChunkRef → Option BtChunk
  nextChunk : ChunkRef

/- The file system, as far as the peer uses it. -/
structure Files where
  content : Path → Option Bytes
  writable : Path → Bool

/-
  What the process is run in: the hash function, the
  successive readings of the clock in milliseconds and the
  bytes that uninitialised memory happens to hold.
-/
structure Env where
  shahash : Bytes → Hash
  clock : Nat → Int
  junk : Nat → UInt8

/- An array of `size` bytes whose first bytes are written. -/
def Env.fill
    (env : Env)
    (size : Nat)
    (bytes : Bytes) : Bytes :=
  bytes ++
    (List.range' bytes.length (size - bytes.length)).map
      env.junk

end PeerNet

------------------------------------------------------------
-- Faults, Events and Nodes
------------------------------------------------------------

namespace PeerNet

/-
  Where the process leaves defined behaviour, or stops
  making progress.
-/
inductive Fault where
  /- `cur->chunk->` on no chunk in `timeout_check`. -/
  | timeoutChunk
  /- `chunk->peer->` on no peer in `finish_chunk`. -/
  | finishPeer
  /- A chunk pointer that is no node of the download list. -/
  | freedChunk
  /- Packet nodes used after `del_packet_list`. -/
  | freedPackets
  /- The `data` of a node that was not received. -/
  | unsetNode
  /- `peer_with_addr` gave no peer, and it is used. -/
  | ihavePeer
  | getPeer
  | dataPeer
  /- `chunk_with_id` gave no chunk in `finish_get`. -/
  | finishGetChunk
  /- A read behind the received payload. -/
  | packetRead
  /- A write behind the end of a buffer. -/
  | bufferOverflow
  | whohasOverflow
  | textOverflow
  /- `packets[i]` with `i` out of range. -/
  | packetIndex
  /- `id * BT_CHUNK_SIZE` overflows. -/
  | offsetOverflow
  /- A loop that never ends. -/
  | hang
deriving DecidableEq

/-
  What the diagnostic output of the receiver tells, with the
  objects it is about: a chunk just assigned to a peer, the
  packet list a finished chunk has, the configuration and
  files a finished GET is completed from, and the `GOT` line.
-/
inductive Event where
  | sendGet (r : ChunkRef) (chunk : BtChunk)
  | finishChunk (r : ChunkRef) (packets : BtPackets)
  | hashMismatch (r : ChunkRef)
  | hasChunkError (r : ChunkRef)
  | finishGet (config : BtConfig) (files : Files)
  | got (getChunkFile : Path)

/-
  One peer process. `reads` counts the clock readings so far;
  `fault` is set once the process has left defined behaviour.
-/
structure Node where
  config : BtConfig
  files : Files
  queue : List Datagram
  reads : Nat
  trace : List Event
  fault : Option Fault

abbrev Prog := EStateM Fault Node

namespace Node

@[simps]
def onConfig
    (f : BtConfig → BtConfig)
    (n : Node) : Node :=
  { n with config := f n.config }

@[simps]
def emit
    (e : Event)
    (n : Node) : Node :=
  { n with trace := n.trace ++ [e] }

/-
  Run one call on a process. A fault is recorded, and a
  process at a fault does nothing more.
-/
def exec
    {α : Type}
    (x : Prog α)
    (n : Node) : Node :=
  if n.fault.isSome then
    n
  else
    match x n with
    | .ok _ m => m
    | .error f m => { m with fault := some f }

end Node

end PeerNet
