import Mathlib.Logic.Relation
import PeerNet.Model.Receiver

/-
  What the receiving side can do to a process, said once.

  `Move` lists the single changes that `process_user_get`,
  `timeout_check`, `get_all_the_thingz` and `process_ihave`
  are made of, each with what the code has checked by then.
  `DataStep` is the part of `process_data` up to the end of
  `finish_chunk`'s own work, and `GetMove` lists the changes
  of `finish_get`. A property of processes is kept by a
  handler once it is kept by these.

  Key definitions include:
    * `Move`
    * `GetMove`
    * `DataStep`
    * `Dangling`
-/

------------------------------------------------------------
-- Updates of a Process
------------------------------------------------------------

namespace PeerNet

namespace Node

/- The clock was read. -/
@[simps]
def tick
    (n : Node) : Node :=
  { n with reads := n.reads + 1 }

@[simps]
def push
    (d : Datagram)
    (n : Node) : Node :=
  { n with queue := n.queue ++ [d] }

end Node

end PeerNet

------------------------------------------------------------
-- Moves
------------------------------------------------------------

namespace PeerNet

/- One item of a chunk file: hash, id, and is it owned? -/
structure Item where
  hash : Hash
  id : Int
  owned : Bool

namespace BtConfig

def addItem
    (c : BtConfig)
    (item : Item) : BtConfig :=
  c.addReceiver item.hash item.id item.owned

/- `process_user_get`, up to the items it has read. -/
def load
    (chunkfile outputfile : Path)
    (items : List Item)
    (c : BtConfig) : BtConfig :=
  items.foldl addItem (c.startGet chunkfile outputfile)

/- `send_get` past its test of the limit. -/
def fetch
    (p : PeerRef)
    (r : ChunkRef)
    (now : Int)
    (c : BtConfig) : BtConfig :=
  c.raiseMaxConn.assign p r now

end BtConfig

/- A chunk as `send_get` leaves it. -/
def BtChunk.fetched
    (p : PeerRef)
    (chunk : BtChunk) : BtChunk :=
  { chunk with
    peer := some p
    nextExpected := initSeqnum
    packets := .live [] }

/- `send_get`'s effects: the chunk `r` is asked of `p`. -/
def Node.fetch
    (env : Env)
    (p : PeerRef)
    (r : ChunkRef)
    (chunk : BtChunk)
    (dest : Addr)
    (n : Node) : Node :=
  (((n.tick.onConfig
    (BtConfig.fetch p r (env.clock n.reads))).emit
    (.sendGet r (chunk.fetched p))).push
    ⟨getPacket chunk.hash, dest⟩)

/- The single changes of `finish_get`. -/
inductive GetMove : Node → Node → Prop
| entered (n : Node) :
    n.config.numDownloaded = n.config.numChunks →
    GetMove n (n.emit (.finishGet n.config n.files))
| files (n : Node) (g : Files → Files) :
    GetMove n (n.onFiles g)
| got (n : Node) :
    GetMove n (n.emit (.got n.config.getChunkFile))
| dropped (n : Node) :
    n.config.numDownloaded = n.config.numChunks →
    GetMove n (n.onConfig BtConfig.dropDownload)

/- `has_chunk` says whether an item is owned. -/
def Item.Looked
    (env : Env)
    (n : Node)
    (item : Item) : Prop :=
  ∃ id, hasChunk env n.files n.config item.hash = .ok id ∧
    item.owned = decide (id ≠ -1)

/- The calls that the moves below belong to. -/
inductive Call where
  | userGet
  | timeoutCheck
  | getAllTheThingz
  | ihave

/-
  The single changes of the other receiver functions, each
  in the calls that make it.
-/
inductive Move
    (env : Env) : Call → Node → Node → Prop
| get {call : Call} {n m : Node} :
    GetMove n m →
    Move env call n m
| tick {call : Call} (n : Node) :
    Move env call n n.tick
| whohas {call : Call} (n : Node) (now : Int) :
    Move env call n
      (n.onConfig fun c => { c with lastWhohas := now })
| push {call : Call} (n : Node) (d : Datagram) :
    d.packet.header.type = typeWhohas →
    Move env call n (n.push d)
| counted (n : Node) (cur : PeerRef) :
    cur ∈ n.config.peers →
    (n.config.peer cur).lastResponse ≠ -1 →
    Move env .timeoutCheck n
      (n.onConfig (BtConfig.countTimeout cur))
| gaveUp
    (n : Node)
    (cur : PeerRef)
    (r : ChunkRef)
    (chunk : BtChunk)
    (packets : BtPackets)
    (now : Int) :
    cur ∈ n.config.peers →
    (n.config.peer cur).chunk = some r →
    n.config.chunk r = some chunk →
    delPacketList chunk.packets = .ok packets →
    Move env .timeoutCheck n
      (n.onConfig (BtConfig.giveUp cur r packets now))
| fetched
    (n : Node)
    (p q : PeerRef)
    (r : ChunkRef)
    (chunk : BtChunk) :
    n.config.curDownload < n.config.maxConn →
    n.config.chunk r = some chunk →
    chunk.downloaded = false →
    chunk.peer = none →
    q ∈ chunk.peers →
    (n.config.peer q).downloading = false →
    peerWithAddr (n.config.peer q).addr n.config = some p →
    Move env .getAllTheThingz n
      (n.fetch env p r chunk (n.config.peer q).addr)
| cleared (n : Node) (p : PeerRef) :
    p ∈ n.config.peers →
    Move env .ihave n (n.onConfig (BtConfig.clearBad p))
| announced (n : Node) (r : ChunkRef) (p : PeerRef) :
    r ∈ n.config.download →
    p ∈ n.config.peers →
    Move env .ihave n
      (n.onConfig (BtConfig.addPeerList r p))
| loaded
    (n : Node)
    (chunkfile outputfile : Path)
    (items : List Item) :
    n.config.download = [] →
    (∀ item ∈ items, item.Looked env n) →
    Move env .userGet n
      (n.onConfig
        (BtConfig.load chunkfile outputfile items))

abbrev Moves
    (env : Env)
    (call : Call) : Node → Node → Prop :=
  Relation.ReflTransGen (Move env call)

abbrev GetMoves : Node → Node → Prop :=
  Relation.ReflTransGen GetMove

end PeerNet

------------------------------------------------------------
-- Data
------------------------------------------------------------

namespace PeerNet

namespace Node

/- `process_data` has found the peer `p`. -/
def heard
    (env : Env)
    (p : PeerRef)
    (n : Node) : Node :=
  n.tick.onConfig
    (BtConfig.heardData p (env.clock n.reads))

/- The chunk `r` is now `chunk`. -/
def keep
    (r : ChunkRef)
    (chunk : BtChunk)
    (n : Node) : Node :=
  n.onConfig (BtConfig.setChunk r fun _ => chunk)

/- The head of `finish_chunk`. -/
def release
    (p : PeerRef)
    (r : ChunkRef)
    (packets : BtPackets)
    (n : Node) : Node :=
  (n.emit (.finishChunk r packets)).onConfig
    (BtConfig.release p r)

/- A verified chunk is recorded in the has-chunk file. -/
def recorded
    (r : ChunkRef)
    (id : Int)
    (hash : Hash)
    (n : Node) : Node :=
  ((n.onFiles (Files.append n.config.hasChunkFile [])).onFiles
    (Files.append n.config.hasChunkFile
      (hasChunkLine id hash))).onConfig
    (BtConfig.markDownloaded r)

end Node

/- The number and the payload that `add_packet` takes. -/
def Packet.seq
    (packet : Packet) : Int :=
  toInt32 packet.header.seqNum

def Packet.payload
    (packet : Packet) : Bytes :=
  packet.buf.take
    (packet.header.packetLen.toNat - packetHeadSize)

/- The chunk after `add_packet_list` took a packet. -/
def BtChunk.take
    (chunk : BtChunk)
    (nodes : List BtPacket)
    (packet : Packet) : BtChunk :=
  addPacketList chunk nodes packet.seq packet.payload

/- The nodes after a packet, had already or not. -/
def storedNodes
    (nodes : List BtPacket)
    (packet : Packet) : List BtPacket :=
  (storePacket nodes packet.seq packet.payload).getD nodes

theorem BtChunk.take_packets
    {chunk : BtChunk}
    {nodes : List BtPacket}
    (hPackets : chunk.packets = .live nodes)
    (packet : Packet) :
    (chunk.take nodes packet).packets =
      .live (storedNodes nodes packet) := by
  unfold BtChunk.take addPacketList storedNodes
  cases storePacket nodes packet.seq packet.payload with
  | none => simpa using hPackets
  | some nodes' => rfl

section

variable (chunk : BtChunk) (nodes : List BtPacket)
variable (packet : Packet)

@[simp] theorem BtChunk.take_peer :
    (chunk.take nodes packet).peer = chunk.peer := by
  unfold BtChunk.take addPacketList
  split <;> rfl

@[simp] theorem BtChunk.take_peers :
    (chunk.take nodes packet).peers = chunk.peers := by
  unfold BtChunk.take addPacketList
  split <;> rfl

@[simp] theorem BtChunk.take_id :
    (chunk.take nodes packet).id = chunk.id := by
  unfold BtChunk.take addPacketList
  split <;> rfl

@[simp] theorem BtChunk.take_hash :
    (chunk.take nodes packet).hash = chunk.hash := by
  unfold BtChunk.take addPacketList
  split <;> rfl

@[simp] theorem BtChunk.take_downloaded :
    (chunk.take nodes packet).downloaded =
      chunk.downloaded := by
  unfold BtChunk.take addPacketList
  split <;> rfl

end

/- A peer that an address finds is listed. -/
theorem mem_peers_of_peerWithAddr
    {c : BtConfig}
    {src : Addr}
    {p : PeerRef}
    (hFound : peerWithAddr src c = some p) :
    p ∈ c.peers :=
  List.mem_of_find?_eq_some hFound

/- And it has that address. -/
theorem addr_of_peerWithAddr
    {c : BtConfig}
    {src : Addr}
    {p : PeerRef}
    (hFound : peerWithAddr src c = some p) :
    (c.peer p).addr = src := by
  have hAddr := List.find?_some hFound
  simp only [decide_eq_true_eq] at hAddr
  cases src
  cases hPeer : (c.peer p).addr
  simp_all

/- DATA from `src` goes to `p`'s chunk `r`. -/
structure Fetching
    (c : BtConfig)
    (src : Addr)
    (p : PeerRef)
    (r : ChunkRef) : Prop where
  found : peerWithAddr src c = some p
  assigned : (c.peer p).chunk = some r

/- `add_packet` takes a packet for a live chunk. -/
structure Taking
    (c : BtConfig)
    (src : Addr)
    (packet : Packet)
    (p : PeerRef)
    (r : ChunkRef)
    (chunk : BtChunk)
    (nodes : List BtPacket) : Prop
    extends Fetching c src p r where
  low : initSeqnum ≤ packet.seq
  high : packet.seq ≤ maxSeqnum
  live : c.chunk r = some chunk
  packets : chunk.packets = .live nodes

/- The chunk of a fetch is gone or has no peer. -/
def Loose
    (c : BtConfig)
    (src : Addr) : Prop :=
  ∃ p r, Fetching c src p r ∧
    ∀ chunk, c.chunk r = some chunk → chunk.peer = none

/- The packet fills the chunk, so `finish_chunk` runs. -/
structure Filling
    (c : BtConfig)
    (src : Addr)
    (packet : Packet)
    (p q : PeerRef)
    (r : ChunkRef)
    (chunk : BtChunk)
    (nodes : List BtPacket) : Prop
    extends Taking c src packet p r chunk nodes where
  full : btChunkSize ≤ (chunk.take nodes packet).totalData
  owner : chunk.peer = some q

/- What `finish_chunk` hashes has the hash of the chunk. -/
def Verified
    (env : Env)
    (hash : Hash)
    (nodes : List BtPacket) : Prop :=
  ∃ buffer, writeToBuffer env nodes = .ok buffer ∧
    hashEqual hash (env.shahash buffer) = true

/- What `finish_chunk` hashes has another hash. -/
def Mismatched
    (env : Env)
    (hash : Hash)
    (nodes : List BtPacket) : Prop :=
  ∃ buffer, writeToBuffer env nodes = .ok buffer ∧
    hashEqual hash (env.shahash buffer) = false

/- The process at the head of `finish_chunk`'s tests. -/
def Node.filled
    (env : Env)
    (packet : Packet)
    (p q : PeerRef)
    (r : ChunkRef)
    (chunk : BtChunk)
    (nodes : List BtPacket)
    (n : Node) : Node :=
  ((n.heard env p).keep r (chunk.take nodes packet)).release
    q r (.live (storedNodes nodes packet))

/- What `packet_new` queues of a packet. -/
def Packet.copy
    (packet : Packet) : Packet where
  header := packet.header
  buf := packet.payload

/- Head and length agree with what was received. -/
def Packet.Whole
    (packet : Packet) : Prop :=
  packetHeadSize ≤ packet.header.packetLen.toNat ∧
    packet.header.packetLen.toNat - packetHeadSize ≤
      packet.buf.length

/-
  `add_packet` takes the payload, and refuses a packet that
  promises more than it has, unless it has it already.
-/
theorem addPacket_eq
    (env : Env)
    (r : ChunkRef)
    (packet : Packet) :
    addPacket env r packet = (do
      let chunk ← derefChunk r
      match chunk.packets with
      | .freed => throw .freedPackets
      | .live nodes =>
          if (storePacket nodes packet.seq
                packet.payload).isSome ∧
              (packet.header.packetLen.toNat <
                  packetHeadSize ∨
                packet.buf.length <
                  packet.header.packetLen.toNat -
                    packetHeadSize) then
            throw .packetRead
          else
            let chunk := chunk.take nodes packet
            modify (Node.onConfig
              (BtConfig.setChunk r fun _ => chunk))
            if btChunkSize ≤ chunk.totalData then
              finishChunk env r
            return chunk.nextExpected) := by
  have hSize :
      (addPacketDataLen packet.header).toNat =
        packet.header.packetLen.toNat - packetHeadSize :=
    Int.toNat_sub _ _
  have hRead :
      (addPacketDataLen packet.header < 0 ∨
          packet.buf.length <
            addPacketDataLen packet.header) ↔
        packet.header.packetLen.toNat < packetHeadSize ∨
          packet.buf.length <
            packet.header.packetLen.toNat -
              packetHeadSize := by
    unfold addPacketDataLen
    omega
  unfold addPacket BtChunk.take Packet.payload Packet.seq
  refine congrArg (bind (derefChunk r)) (funext fun chunk => ?_)
  cases chunk.packets with
  | freed => rfl
  | live nodes =>
      dsimp only
      rw [hSize]
      exact if_congr (and_congr_right' hRead) rfl rfl

/- The number `process_data` answers with. -/
def BtChunk.ackNum
    (chunk : BtChunk) : Int :=
  chunk.nextExpected - 1

/-
  How far `process_data` has got before `finish_get` and its
  answer, the number it is about to acknowledge and whether
  it has counted a chunk: one case for every way through it.
-/
inductive DataStep
    (env : Env)
    (src : Addr)
    (packet : Packet) : Node → Option Int → Bool → Node → Prop
| ignored (n : Node) :
    (∀ p r, ¬ Fetching n.config src p r) →
    DataStep env src packet n none false n
| refused (n : Node) (p : PeerRef) (r : ChunkRef) :
    Fetching n.config src p r →
    (∀ chunk nodes,
      Taking n.config src packet p r chunk nodes →
      ¬ packet.Whole) →
    DataStep env src packet n none false (n.heard env p)
| stored
    (n : Node)
    (p : PeerRef)
    (r : ChunkRef)
    (chunk : BtChunk)
    (nodes : List BtPacket) :
    Taking n.config src packet p r chunk nodes →
    (chunk.take nodes packet).totalData < btChunkSize →
    DataStep env src packet n
      (some (chunk.take nodes packet).ackNum) false
      ((n.heard env p).keep r (chunk.take nodes packet))
| stopped
    (n : Node)
    (p q : PeerRef)
    (r : ChunkRef)
    (chunk : BtChunk)
    (nodes : List BtPacket)
    (g : Files → Files)
    (f : Fault) :
    Filling n.config src packet p q r chunk nodes →
    (writeToBuffer env (storedNodes nodes packet) =
        .error f ∨
      masterChunk env
          (n.files.append n.config.hasChunkFile [])
          n.config chunk.hash = .error f) →
    DataStep env src packet n none false
      ((n.filled env packet p q r chunk nodes).onFiles g)
| rejected
    (n : Node)
    (p q : PeerRef)
    (r : ChunkRef)
    (chunk : BtChunk)
    (nodes : List BtPacket) :
    Filling n.config src packet p q r chunk nodes →
    Mismatched env chunk.hash (storedNodes nodes packet) →
    DataStep env src packet n
      (some (chunk.take nodes packet).ackNum) false
      ((n.filled env packet p q r chunk nodes).emit
        (.hashMismatch r))
| unrecorded
    (n : Node)
    (p q : PeerRef)
    (r : ChunkRef)
    (chunk : BtChunk)
    (nodes : List BtPacket) :
    Filling n.config src packet p q r chunk nodes →
    Verified env chunk.hash (storedNodes nodes packet) →
    n.files.writable n.config.hasChunkFile = false →
    DataStep env src packet n
      (some (chunk.take nodes packet).ackNum) false
      ((n.filled env packet p q r chunk nodes).emit
        (.hasChunkError r))
| recorded
    (n : Node)
    (p q : PeerRef)
    (r : ChunkRef)
    (chunk : BtChunk)
    (nodes : List BtPacket)
    (id : Int) :
    Filling n.config src packet p q r chunk nodes →
    Verified env chunk.hash (storedNodes nodes packet) →
    n.files.writable n.config.hasChunkFile = true →
    masterChunk env
        (n.files.append n.config.hasChunkFile [])
        n.config chunk.hash = .ok id →
    DataStep env src packet n
      (some (chunk.take nodes packet).ackNum) true
      ((n.filled env packet p q r chunk nodes).recorded r id
        chunk.hash)

/- `process_data`'s answer. -/
def Node.answer
    (src : Addr)
    (ack : Option Int)
    (n : Node) : Node :=
  match ack with
  | none => n
  | some ackNum => n.push ⟨ackPacket ackNum, src⟩

end PeerNet

------------------------------------------------------------
-- Dangling Pointers
------------------------------------------------------------

namespace PeerNet

/-
  What a configuration looks like when the code is about to
  follow a pointer to nothing.
-/
def Dangling
    (c : BtConfig) : Fault → Prop
| .timeoutChunk =>
    c.download ≠ [] ∧ ∃ p ∈ c.peers,
      (c.peer p).lastResponse ≠ -1 ∧
        (c.peer p).chunk = none
| .freedChunk =>
    ∃ r, c.chunk r = none ∧
      (r ∈ c.download ∨
        ∃ p ∈ c.peers, (c.peer p).chunk = some r)
| .getPeer =>
    ∃ r chunk, c.chunk r = some chunk ∧
      ∃ q ∈ chunk.peers,
        peerWithAddr (c.peer q).addr c = none
| _ => False

/- The faults of following such a pointer. -/
def Fault.isPointer :
    Fault → Bool
| .timeoutChunk => true
| .finishPeer => true
| .freedChunk => true
| .getPeer => true
| _ => false

end PeerNet
