import PeerNet.Model.Sender

/-
  Answering a WHOHAS: `process_whohas` and `send_ihave` of
  `peer_sender.c`, with the chunk lists of `udp_utils.c`.

  A chunk list is built at its tail: `next` is the node
  allocated last, and `chunks` is set once, for the first
  hash of the packet. The loop keeps all nodes, each linked
  to the one after it, and where among them `chunks` points;
  nodes that `chunks` does not reach are lost.

  Key definitions include:
    * `whohasLoop`
    * `processWhohas`
    * `sendIhave`
-/

------------------------------------------------------------
-- Chunk Lists
------------------------------------------------------------

namespace PeerNet

/- Hash `i` of a payload, behind the count and its padding. -/
def payloadHash
    (buf : Bytes)
    (i : Nat) : Hash :=
  hashOfBytes (buf.drop (4 + 20 * i))

/-
  The locals of `process_whohas`: the nodes of the chunk
  list and the node of `chunks`. The hashes that
  `has_chunk` was asked for are recorded.
-/
structure WhohasScan where
  asked : List Hash
  nodes : List Hash
  chunks : Option Nat
deriving DecidableEq

namespace WhohasScan

/- Before the loop: both pointers are `NULL`. -/
def init : WhohasScan :=
  ⟨[], [], none⟩

/- The call of `has_chunk`. -/
def ask
    (hash : Hash)
    (scan : WhohasScan) : WhohasScan :=
  { scan with asked := scan.asked ++ [hash] }

/- `add_to_chunk_list`, and `chunks` in the first round. -/
def add
    (i : Nat)
    (hash : Hash)
    (scan : WhohasScan) : WhohasScan :=
  { scan with
    nodes := scan.nodes ++ [hash]
    chunks :=
      if i = 0 then some scan.nodes.length
      else scan.chunks }

/- The list that starts at `chunks`. -/
def list
    (scan : WhohasScan) : List Hash :=
  match scan.chunks with
  | none => []
  | some k => scan.nodes.drop k

end WhohasScan

end PeerNet

------------------------------------------------------------
-- Announcing
------------------------------------------------------------

namespace PeerNet

/- `max_chunks` of `send_ihave`. -/
abbrev maxIhaveChunks : Nat :=
  (1500 - packetHeadSize) / 20

/- The IHAVE packet for some hashes. -/
def ihavePacket
    (hashes : List Hash) : Packet where
  header :=
    initPacketHead typeIhave 16
      (16 + 4 + 20 * hashes.length) 0 0
  buf :=
    UInt8.ofNat hashes.length :: 0 :: 0 :: 0 ::
      hashes.flatMap (fun hash => hash.toList)

/-
  The loop of `send_ihave`: `next` are the nodes left, and
  `total_chunks` is their number. It is stored in a `char`;
  a negative length makes `malloc` fail.
-/
def sendIhaveLoop
    (dest : Addr) :
    Nat → List Hash → Prog Int
| 0, _ => throw .hang
| fuel + 1, next => do
    if next = [] then
      return 0
    else
      let numChunks :=
        min (toChar next.length) maxIhaveChunks
      if 4 + 20 * numChunks < 0 then
        return -1
      else
        packetNew (ihavePacket (next.take numChunks.toNat))
          dest
        sendIhaveLoop dest fuel (next.drop numChunks.toNat)

/- `send_ihave`. -/
def sendIhave
    (dest : Addr)
    (chunks : List Hash) : Prog Int :=
  sendIhaveLoop dest (chunks.length + 1) chunks

/-
  The loop of `process_whohas`: `count` rounds are left, the
  next one for hash `i`.
-/
def whohasLoop
    (lookup : Hash → Except Fault Int)
    (buf : Bytes) :
    Nat → Nat → EStateM Fault WhohasScan Unit
| 0, _ => pure ()
| count + 1, i => do
    if buf.length < 4 + 20 * i + 20 then
      throw .packetRead
    else
      let hash := payloadHash buf i
      modify (WhohasScan.ask hash)
      match lookup hash with
      | .error f => throw f
      | .ok id =>
          if 0 ≤ id then
            modify (WhohasScan.add i hash)
          whohasLoop lookup buf count (i + 1)

/- `num_chunks` of a payload, read as a signed `char`. -/
def whohasCount
    (numChunks : UInt8) : Nat :=
  (toChar numChunks.toNat).toNat

/- The part of `process_whohas` that reads the payload. -/
def whohasScan
    (lookup : Hash → Except Fault Int)
    (buf : Bytes) : EStateM Fault WhohasScan Unit :=
  match buf with
  | [] => throw .packetRead
  | numChunks :: _ =>
      whohasLoop lookup buf (whohasCount numChunks) 0

/- `process_whohas`. -/
def processWhohas
    (env : Env)
    (src : Addr)
    (packet : Packet) : Prog Int := do
  let n ← get
  match whohasScan (hasChunk env n.files n.config)
      packet.buf .init with
  | .error f _ => throw f
  | .ok _ scan => sendIhave src scan.list

end PeerNet
