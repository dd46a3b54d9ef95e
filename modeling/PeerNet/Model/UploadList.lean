import PeerNet.Lib.DoublyLinked
import PeerNet.Lib.Runs
import PeerNet.Model.Sender

/-
  The upload list with its pointers.

  `PeerNet.Model.Sender` has the uploads as a `List`. Here
  they are `bt_sender_list` nodes with `prev` and `next` in a
  heap, and `add_sender_list`, `find_sender_list`,
  `del_sender_list`, `process_get`, `process_ack` and the
  cursor of `peer_cc` work on the pointers. What one visit of
  `peer_cc` does to the node under its cursor is `ccVisit` of
  the list model.

  Where a node lies is up to `malloc`: a call that allocates
  is told the address. A node that is followed after it was
  freed is a fault, and so is a walk that meets more nodes
  than were ever added. `calls` is a ghost record of the
  calls of `add_sender_list` and `del_sender_list`.

  Key definitions include:
    * `SenderEntry`
    * `UploadHeap`
    * `UploadHeap.addSenderList`
    * `UploadHeap.delSenderList`
    * `UploadHeap.findSenderList`
    * `LinkedNode.peerCc`
    * `LinkedNode.step`
-/

------------------------------------------------------------
-- Entries
------------------------------------------------------------

namespace PeerNet

/- A pointer to a node of the upload list. -/
abbrev SenderRef := Nat

/-
  The fields of `bt_sender_list` other than its links; here
  `peer` may be `NULL`.
-/
structure SenderEntry where
  hash : Hash
  packets : Option (List (Option Packet))
  numPackets : Int
  lastAcked : Int
  lastSent : Int
  windowSize : Int
  recvd : Int
  ssthresh : Int
  state : CcState
  retransmit : Int
  sentTime : Int
  dropped : Int
  peer : Option PeerRef
deriving DecidableEq

namespace SenderEntry

/-
  The entry of the list model. It has a peer; where the peer
  is `NULL` nothing reads the field.
-/
def sender
    (e : SenderEntry) : BtSender where
  hash := e.hash
  packets := e.packets
  numPackets := e.numPackets
  lastAcked := e.lastAcked
  lastSent := e.lastSent
  windowSize := e.windowSize
  recvd := e.recvd
  ssthresh := e.ssthresh
  state := e.state
  retransmit := e.retransmit
  sentTime := e.sentTime
  dropped := e.dropped
  peer := e.peer.getD 0

/- The counters of an upload written back to its entry. -/
def write
    (s : BtSender)
    (e : SenderEntry) : SenderEntry :=
  { e with
    lastAcked := s.lastAcked
    lastSent := s.lastSent
    windowSize := s.windowSize
    recvd := s.recvd
    ssthresh := s.ssthresh
    state := s.state
    retransmit := s.retransmit
    sentTime := s.sentTime
    dropped := s.dropped }

/- The entry `add_sender_list` makes. -/
def new
    (hash : Hash)
    (packets : Option (List (Option Packet)))
    (numPackets : Int)
    (peer : Option PeerRef) : SenderEntry where
  hash := hash
  packets := packets
  numPackets := numPackets
  lastAcked := 0
  lastSent := 0
  windowSize := 1
  recvd := 0
  ssthresh := ssthreshInit
  state := .start
  retransmit := 0
  sentTime := 0
  dropped := 0
  peer := peer

/-
  `del_sender_list` frees `num_packets` packets: they are all
  in the array.
-/
def freeable
    (e : SenderEntry) : Bool :=
  match e.packets with
  | none => true
  | some packets => e.numPackets ≤ packets.length

end SenderEntry

/- Where the process leaves defined behaviour. -/
inductive UploadFault where
  /- A freed node is followed, or a walk has no end. -/
  | freedSender
  /- `sender->peer->` on no peer. -/
  | senderPeer
  /- A fault of another function. -/
  | other (f : Fault)
deriving DecidableEq

end PeerNet

------------------------------------------------------------
-- The List
------------------------------------------------------------

namespace PeerNet

open DoublyLinked

/- A call that changes the list. -/
inductive SenderCall where
  | add (r : SenderRef) (e : SenderEntry)
  | del (r : SenderRef)

/-
  The entries that were added and not deleted since, newest
  first, each as it was added; the calls are newest first.
-/
def live :
    List SenderCall → List (SenderRef × SenderEntry)
| [] => []
| .add r e :: calls => (r, e) :: live calls
| .del r :: calls => (live calls).filter (·.1 ≠ r)

/- `upload` and the nodes it leads to. -/
structure UploadHeap where
  chain : Chain SenderRef SenderEntry
  calls : List SenderCall

namespace UploadHeap

/- The list of a process that has no uploads. -/
def empty : UploadHeap where
  chain := ⟨none, fun _ => none⟩
  calls := []

/-
  `add_sender_list`, its node at `sender`: `prev` is `NULL`,
  `next` is the old head, which points back to the node, and
  the node is the new head.
-/
def addSenderList
    (sender : SenderRef)
    (e : SenderEntry)
    (u : UploadHeap) : Except UploadFault UploadHeap :=
  let upload := u.chain.head
  match (u.chain.put sender ⟨e, none, upload⟩).leadBack
      upload (some sender) with
  | none => .error .freedSender
  | some chain =>
      .ok ⟨{ chain with head := some sender },
        .add sender e :: u.calls⟩

/-
  `del_sender_list`: `before`, or the head if there is none,
  leads on to `after`, and `after` back to `before`.
-/
def delSenderList
    (sender : Option SenderRef)
    (u : UploadHeap) : Except UploadFault UploadHeap :=
  match sender with
  | none => .ok u
  | some r =>
      match u.chain.mem r with
      | none => .error .freedSender
      | some node =>
          let before := node.prev
          let after := node.next
          if node.item.freeable then
            match (u.chain.leadFrom before after).bind
                (·.leadBack after before) with
            | none => .error .freedSender
            | some chain =>
                .ok ⟨chain.free r, .del r :: u.calls⟩
          else
            .error (.other .packetIndex)

/- Does `find_sender_list` stop at this entry for `peer`? -/
def stopsAt
    (peerOf : PeerRef → BtPeer)
    (peer : PeerRef)
    (e : SenderEntry) : Bool :=
  match e.peer with
  | none => false
  | some p => (peerOf p).id = (peerOf peer).id

/- `find_sender_list`. -/
def findSenderList
    (peerOf : PeerRef → BtPeer)
    (peer : PeerRef)
    (u : UploadHeap) : Option (Option SenderRef) :=
  seek u.chain.mem (stopsAt peerOf peer) u.calls.length
    u.chain.head

/- Change the entry of an allocated node. -/
def update
    (r : SenderRef)
    (f : SenderEntry → SenderEntry)
    (u : UploadHeap) : Except UploadFault UploadHeap :=
  match u.chain.mem r with
  | none => .error .freedSender
  | some node =>
      .ok { u with
        chain :=
          u.chain.put r
            ⟨f node.item, node.prev, node.next⟩ }

end UploadHeap

end PeerNet

------------------------------------------------------------
-- Processes
------------------------------------------------------------

namespace PeerNet

/-
  A process with its uploads on the heap. Everything else is
  in `node`, whose own list of uploads is not used.
-/
structure LinkedNode where
  node : Node
  uploads : UploadHeap
  fault : Option UploadFault

abbrev UploadProg := EStateM UploadFault LinkedNode

/- A process that has read the clock `reads` times. -/
def Node.readTo
    (reads : Nat)
    (n : Node) : Node :=
  { n with reads := reads }

namespace LinkedNode

/- Change the list. -/
def onUploads
    (f : UploadHeap → Except UploadFault UploadHeap) :
    UploadProg Unit := do
  match f (← get).uploads with
  | .error fault => throw fault
  | .ok u => modify fun s => { s with uploads := u }

/- A call that does not touch the list. -/
def onNode
    {α : Type}
    (x : Prog α) : UploadProg α := do
  match x (← get).node with
  | .ok a n =>
      modify fun s => { s with node := n }
      return a
  | .error fault n =>
      modify fun s => { s with node := n }
      throw (.other fault)

/- `find_sender_list`. -/
def findSenderList
    (peer : PeerRef) : UploadProg (Option SenderRef) := do
  let s ← get
  match s.uploads.findSenderList s.node.config.peer peer with
  | none => throw .freedSender
  | some found => return found

/- `send_data`, its upload at `sender`. -/
def sendData
    (env : Env)
    (sender : SenderRef)
    (dest : Addr)
    (hash : Hash) : UploadProg Int := do
  let n := (← get).node
  match dataChunk env n.files n.config hash with
  | .error fault => throw (.other fault)
  | .ok none => return -1
  | .ok (some (filechunk, readBytes)) =>
      let count := numPackets readBytes
      let cut := cutPackets filechunk readBytes count 1 0
      if cut.2 ≠ readBytes then
        return -1
      else
        match peerWithAddr dest n.config with
        | none => throw (.other .dataPeer)
        | some peer =>
            onUploads (UploadHeap.addSenderList sender
              (SenderEntry.new hash (some (cut.1.map some))
                count (some peer)))
            return 0

/- `process_get`, the upload it may make at `sender`. -/
def processGet
    (env : Env)
    (sender : SenderRef)
    (src : Addr)
    (packet : Packet) : UploadProg Int := do
  let c := (← get).node.config
  match peerWithAddr src c with
  | none => return -1
  | some peer =>
      match ← findSenderList peer with
      | some _ => return -1
      | none =>
          if (packet.header.packetLen.toNat : Int) -
              packet.header.headerLen.toNat ≠ 20 then
            return -1
          else if packet.buf.length < 20 then
            throw (.other .packetRead)
          else
            sendData env sender src (hashOfBytes packet.buf)

/- `process_ack`. -/
def processAck
    (src : Addr)
    (packet : Packet) : UploadProg Int := do
  let c := (← get).node.config
  match peerWithAddr src c with
  | none => return 0
  | some peer =>
      match ← findSenderList peer with
      | none => return -1
      | some r =>
          onUploads (UploadHeap.update r fun e =>
            e.write (ackSender packet.header.ackNum e.sender))
          return 0

/- `packet_new` for what a visit sends to the entry's peer. -/
def queueVisit
    (e : SenderEntry)
    (v : CcVisit) : UploadProg Unit := do
  let c := (← get).node.config
  if v.queued = [] then
    return ()
  else
    match e.peer with
    | none => throw .senderPeer
    | some _ => onNode (PeerNet.queueVisit c (e.sender, v))

/-
  The loop of `peer_cc`, its cursor at `sender`. A visit
  leaves the links alone, so the `next` read at its start is
  the one that the source reads before a deletion, or when
  the cursor moves on.
-/
def ccLoop
    (env : Env) :
    Nat → Option SenderRef → UploadProg Unit
| _, none => return ()
| 0, some _ => throw .freedSender
| fuel + 1, some sender => do
    let s ← get
    match s.uploads.chain.mem sender with
    | none => throw .freedSender
    | some node =>
        let e := node.item
        let v := ccVisit env ccFuel s.node.reads e.sender
        queueVisit e v
        onNode (modify (Node.readTo v.reads))
        match v.ending with
        | .fault fault => throw (.other fault)
        | .kept kept =>
            onUploads (UploadHeap.update sender (·.write kept))
            ccLoop env fuel node.next
        | _ =>
            onUploads
              (UploadHeap.delSenderList (some sender))
            ccLoop env fuel node.next

/- `peer_cc`. -/
def peerCc
    (env : Env) : UploadProg Unit := do
  let u := (← get).uploads
  ccLoop env u.calls.length u.chain.head

end LinkedNode

end PeerNet

------------------------------------------------------------
-- Runs
------------------------------------------------------------

namespace PeerNet

open DoublyLinked

/-
  What happens to the list: a GET or an ACK from the network,
  a pass of `peer_cc`, and the two functions called directly.
  `rest` is anything that leaves the uploads alone.
-/
inductive ListEvent where
  | get (sender : SenderRef) (src : Addr) (packet : Packet)
  | ack (src : Addr) (packet : Packet)
  | peerCc
  | add
      (sender : SenderRef)
      (hash : Hash)
      (packets : Option (List (Option Packet)))
      (numPackets : Int)
      (peer : Option PeerRef)
  | del (sender : SenderRef)
  | rest (node : Node)

namespace LinkedNode

/- The call an event stands for. -/
def handle
    (env : Env) :
    ListEvent → UploadProg Unit
| .get sender src packet =>
    discard (processGet env sender src packet)
| .ack src packet => discard (processAck src packet)
| .peerCc => peerCc env
| .add sender hash packets numPackets peer =>
    onUploads (UploadHeap.addSenderList sender
      (SenderEntry.new hash packets numPackets peer))
| .del sender =>
    onUploads (UploadHeap.delSenderList (some sender))
| .rest node => modify fun s => { s with node := node }

/- One event; a process at a fault does nothing more. -/
def step
    (env : Env)
    (s : LinkedNode)
    (e : ListEvent) : LinkedNode :=
  if s.fault.isSome then
    s
  else
    match handle env e s with
    | .ok _ t => t
    | .error fault t => { t with fault := some fault }

/-
  `malloc` returns an address that holds no node, an entry
  that is deleted was added and not deleted since, and no
  peer changes its id.
-/
def Allowed
    (s : LinkedNode) :
    ListEvent → Prop
| .get sender _ _ => s.uploads.chain.mem sender = none
| .add sender _ _ _ _ => s.uploads.chain.mem sender = none
| .del sender => sender ∈ refs (live s.uploads.calls)
| .rest node =>
    ∀ p, (node.config.peer p).id = (s.node.config.peer p).id
| _ => True

end LinkedNode

end PeerNet
