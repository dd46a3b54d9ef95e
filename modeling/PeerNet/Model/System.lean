import PeerNet.Lib.Runs
import PeerNet.Model.Sender

/-
  Peers as processes and a network between them.

  `NodeEvent` lists what one process does in `peer_run`'s
  loop: a user request, a scan, a timeout check, a
  congestion-control pass or the handler of one datagram.
  `System` puts a process at every address. Whatever a
  process queues goes onto the network, which delivers any
  datagram it ever carried, in any order, any number of
  times or never.

  A step also keeps ghost records that no process reads:
  which GETs were sent, which of them a receiver's current
  fetch and a sender's current upload belong to, which DATA
  a fetch accepted and which ACK an upload counted last.
  `tag` of a datagram is the GET it was sent for.

  Key definitions include:
    * `NodeEvent`
    * `Node.step`
    * `System`
    * `System.step`
-/

------------------------------------------------------------
-- One Process
------------------------------------------------------------

namespace PeerNet

/- The calls `peer_run` makes. -/
inductive NodeEvent where
  | userGet (chunkfile outputfile : Path)
  | timeoutCheck
  | getAllTheThingz
  | peerCc
  | ihave (src : Addr) (packet : Packet)
  | get (src : Addr) (packet : Packet)
  | data (src : Addr) (packet : Packet)
  | ack (src : Addr) (packet : Packet)

/- The call an event stands for, its result dropped. -/
def handle
    (env : Env) :
    NodeEvent → Prog Unit
| .userGet chunkfile outputfile =>
    processUserGet env chunkfile outputfile
| .timeoutCheck => timeoutCheck env
| .getAllTheThingz => getAllTheThingz env
| .peerCc => peerCc env
| .ihave src packet => discard (processIhave src packet)
| .get src packet => discard (processGet env src packet)
| .data src packet => discard (processData env src packet)
| .ack src packet => discard (processAck src packet)

/- One event at one process. -/
def Node.step
    (env : Env)
    (n : Node)
    (e : NodeEvent) : Node :=
  n.exec (handle env e)

end PeerNet

------------------------------------------------------------
-- Peers and Network
------------------------------------------------------------

namespace PeerNet

/- A datagram on the network. -/
structure Message where
  src : Addr
  dest : Addr
  packet : Packet
  tag : Nat
deriving DecidableEq

/- A GET that was sent. -/
structure Request where
  src : Addr
  dest : Addr
  hash : Hash
deriving DecidableEq

/- A DATA packet that a fetch accepted. -/
structure Accepted where
  fetch : Nat
  origin : Nat
  seqNum : Int
  data : Bytes
deriving DecidableEq

/-
  A process at every address and the messages the network
  ever carried. The other fields are ghost records.
-/
structure System where
  node : Addr → Node
  net : List Message
  requests : List Request
  fetchTag : Addr → Addr → Nat
  uploadTag : Addr → Addr → Nat
  countedTag : Addr → Addr → Nat
  accepted : List Accepted

/-
  A step of the system: of one process, or a delivery of a
  GET, DATA or ACK. An announcement is an event of its own
  and may hold anything, so that every answer to a WHOHAS is
  among the announcements.
-/
inductive SystemEvent where
  | userGet (a : Addr) (chunkfile outputfile : Path)
  | timeoutCheck (a : Addr)
  | getAllTheThingz (a : Addr)
  | peerCc (a : Addr)
  | ihave (a src : Addr) (packet : Packet)
  | deliver (m : Message)

namespace System

/- The process that an event happens at. -/
def place :
    SystemEvent → Addr
| .userGet a _ _ => a
| .timeoutCheck a => a
| .getAllTheThingz a => a
| .peerCc a => a
| .ihave a _ _ => a
| .deliver m => m.dest

/-
  What the process does. `process_inbound_udp` calls the
  handler of the packet's type.
-/
def nodeEvent :
    SystemEvent → Option NodeEvent
| .userGet _ chunkfile outputfile =>
    some (.userGet chunkfile outputfile)
| .timeoutCheck _ => some .timeoutCheck
| .getAllTheThingz _ => some .getAllTheThingz
| .peerCc _ => some .peerCc
| .ihave _ src packet => some (.ihave src packet)
| .deliver m =>
    if m.packet.header.type = typeGet then
      some (.get m.src m.packet)
    else if m.packet.header.type = typeData then
      some (.data m.src m.packet)
    else if m.packet.header.type = typeAck then
      some (.ack m.src m.packet)
    else
      none

/-
  Put one queued datagram onto the network. A GET opens a
  request and becomes the sender's current fetch; DATA
  belongs to the current upload and an ACK to the current
  fetch.
-/
def send
    (a : Addr)
    (σ : System)
    (d : Datagram) : System :=
  if d.packet.header.type = typeGet then
    { σ with
      net := σ.net ++
        [⟨a, d.destAddr, d.packet, σ.requests.length⟩]
      requests := σ.requests ++
        [⟨a, d.destAddr, hashOfBytes d.packet.buf⟩]
      fetchTag :=
        Function.update σ.fetchTag a
          (Function.update (σ.fetchTag a) d.destAddr
            σ.requests.length) }
  else if d.packet.header.type = typeData then
    { σ with
      net := σ.net ++
        [⟨a, d.destAddr, d.packet,
          σ.uploadTag a d.destAddr⟩] }
  else
    { σ with
      net := σ.net ++
        [⟨a, d.destAddr, d.packet,
          σ.fetchTag a d.destAddr⟩] }

/- Put a whole queue onto the network. -/
def flush
    (a : Addr)
    (queue : List Datagram)
    (σ : System) : System :=
  queue.foldl (send a) σ

/- The chunk pointer DATA from `src` is stored through. -/
def fetching
    (n : Node)
    (src : Addr) : Option ChunkRef :=
  (peerWithAddr src n.config).bind fun p =>
    (n.config.peer p).chunk

/- `last_acked` of the upload that goes to an address. -/
def ackedFor
    (n : Node)
    (dest : Addr) : Option Int :=
  (n.config.upload.find? fun s =>
    (n.config.peer s.peer).addr = dest).map
      BtSender.lastAcked

/-
  The ghost records of a delivery: a GET that made an upload
  entry starts an upload, DATA that finds a fetch is accepted
  by it, and an ACK that changes `last_acked` is counted.
-/
def record
    (σ : System)
    (before after : Node)
    (m : Message) : System :=
  if m.packet.header.type = typeGet then
    if before.config.upload.length <
        after.config.upload.length then
      { σ with
        uploadTag :=
          Function.update σ.uploadTag m.dest
            (Function.update (σ.uploadTag m.dest) m.src
              m.tag)
        countedTag :=
          Function.update σ.countedTag m.dest
            (Function.update (σ.countedTag m.dest) m.src
              m.tag) }
    else
      σ
  else if m.packet.header.type = typeData then
    if (fetching before m.src).isSome then
      { σ with
        accepted := σ.accepted ++
          [⟨σ.fetchTag m.dest m.src, m.tag,
            toInt32 m.packet.header.seqNum,
            m.packet.buf⟩] }
    else
      σ
  else if m.packet.header.type = typeAck then
    { σ with
      countedTag :=
        Function.update σ.countedTag m.dest fun b =>
          if ackedFor after b = ackedFor before b then
            σ.countedTag m.dest b
          else
            m.tag }
  else
    σ

/-
  One event: the process runs, the ghost records follow, and
  everything it queued goes onto the network.
-/
def step
    (env : Addr → Env)
    (σ : System)
    (e : SystemEvent) : System :=
  match nodeEvent e with
  | none => σ
  | some ne =>
      let a := place e
      let n := (σ.node a).step (env a) ne
      let σ' :=
        { σ with
          node := Function.update σ.node a
            { n with queue := [] } }
      flush a n.queue
        (match e with
          | .deliver m => σ'.record (σ.node a) n m
          | _ => σ')

/- Only datagrams the network carried are delivered. -/
def NoForging
    (σ : System) :
    SystemEvent → Prop
| .deliver m => m ∈ σ.net
| _ => True

instance
    (σ : System) :
    (e : SystemEvent) →
      Decidable (NoForging σ e)
| .deliver m => inferInstanceAs (Decidable (m ∈ σ.net))
| .userGet _ _ _
| .timeoutCheck _
| .getAllTheThingz _
| .peerCc _
| .ihave _ _ _ => .isTrue trivial

end System

end PeerNet
