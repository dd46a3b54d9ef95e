import PeerNet.Lib.LinkedQueue
import PeerNet.Lib.Runs
import PeerNet.Model.Wire

/-
  The packet queue with its pointers.

  `PeerNet.Model.Types` has the queue of a process as a
  `List`. Here it is `queue.c`: the globals `head` and `tail`
  and `packet_queue` nodes on the heap, with `packet_init`,
  `packet_empty`, `packet_new`, `packet_push`, `packet_pop`,
  `packet_free` and their caller `peer_packet_ops`.

  Where a node lies is up to `malloc`: `packet_new` is told
  the address. Following `NULL` or a freed node is a fault,
  and so is a copy outside its buffer. `calls` is a ghost
  record of the calls and of what they returned.

  Key definitions include:
    * `QueuedPacket`
    * `PacketQueue`
    * `PacketQueue.packetPush`
    * `PacketQueue.packetNew`
    * `PacketQueue.packetPop`
    * `PacketQueue.peerPacketOps`
    * `QueueRun.step`
-/

------------------------------------------------------------
-- The Queue
------------------------------------------------------------

namespace PeerNet

open LinkedQueue

/- A pointer to a node of the packet queue. -/
abbrev NodeRef := Nat

/- The fields of `packet_queue` other than `next`. -/
structure QueuedPacket where
  buf : Bytes
  len : Nat
  destAddr : Addr
deriving DecidableEq

/- Where the queue leaves defined behaviour. -/
inductive QueueFault where
  /- `NULL` or a freed node is followed. -/
  | nullNode
  /- A copy leaves its buffer. -/
  | packetBounds
deriving DecidableEq

/- A call and what it returned. -/
inductive QueueCall where
  | init
  | push (p : NodeRef) (d : QueuedPacket)
  | pop (result : Option (NodeRef × QueuedPacket))
  | empty (result : Bool)
deriving DecidableEq

/- `head`, `tail` and the nodes; the calls, newest first. -/
structure PacketQueue where
  ends : Queue NodeRef QueuedPacket
  calls : List QueueCall

namespace PacketQueue

/- The globals of a process that has just started. -/
def zero : PacketQueue where
  ends := ⟨none, none, fun _ => none⟩
  calls := []

/- Note a call down. -/
def note
    (call : QueueCall)
    (q : PacketQueue) : PacketQueue :=
  { q with calls := call :: q.calls }

/- `packet_init`. -/
def packetInit
    (q : PacketQueue) : PacketQueue :=
  { q with
    ends := { q.ends with head := none, tail := none }
    calls := .init :: q.calls }

/- `packet_empty`. -/
def packetEmpty
    (q : PacketQueue) : Bool :=
  q.ends.head.isNone && q.ends.tail.isNone

/- `packet_push`. -/
def packetPush
    (p : Option NodeRef)
    (q : PacketQueue) : Except QueueFault PacketQueue :=
  match p with
  | none => .ok q
  | some r =>
      match q.ends.mem r with
      | none => .error .nullNode
      | some node =>
          let calls := .push r node.item :: q.calls
          if q.packetEmpty then
            .ok ⟨{ q.ends with head := some r, tail := some r },
              calls⟩
          else
            match q.ends.tail with
            | none => .error .nullNode
            | some tail =>
                match q.ends.mem tail with
                | none => .error .nullNode
                | some last =>
                    let ends :=
                      q.ends.put tail ⟨last.item, some r⟩
                    .ok ⟨{ ends with tail := some r }, calls⟩

/-
  `packet_new`, its node at `n`: the head and as much payload
  as `packet_len` counts are copied.
-/
def packetNew
    (n : NodeRef)
    (p : Packet)
    (a : Addr)
    (q : PacketQueue) : Except QueueFault PacketQueue :=
  let len := p.header.packetLen.toNat
  if len < packetHeadSize ∨
      p.buf.length < len - packetHeadSize then
    .error .packetBounds
  else
    let buf :=
      encodeHead p.header ++ p.buf.take (len - packetHeadSize)
    packetPush (some n)
      { q with ends := q.ends.put n ⟨⟨buf, len, a⟩, none⟩ }

/- `packet_pop`. -/
def packetPop
    (q : PacketQueue) :
    Except QueueFault (Option NodeRef × PacketQueue) :=
  match q.ends.head with
  | none => .ok (none, q.note (.pop none))
  | some tmp =>
      let tail :=
        if q.ends.head = q.ends.tail then none
        else q.ends.tail
      match q.ends.mem tmp with
      | none => .error .nullNode
      | some node =>
          let ends := q.ends.put tmp ⟨node.item, none⟩
          .ok (some tmp,
            ⟨{ ends with head := node.next, tail := tail },
              .pop (some (tmp, node.item)) :: q.calls⟩)

/- `packet_free`. -/
def packetFree
    (p : Option NodeRef)
    (q : PacketQueue) : Except QueueFault PacketQueue :=
  match p with
  | none => .ok q
  | some r =>
      match q.ends.mem r with
      | none => .error .nullNode
      | some _ => .ok { q with ends := q.ends.free r }

/-
  What is left of a datagram of which `sent` bytes are gone:
  the rest is copied to the front of the same buffer.
-/
def unsent
    (sent : Nat)
    (d : QueuedPacket) : QueuedPacket :=
  let newLen := d.len - sent
  { d with
    buf := (d.buf.drop sent).take newLen ++ d.buf.drop newLen
    len := newLen }

/-
  `peer_packet_ops`, where `spiffy_sendto` has returned
  `bytesSent`. More bytes than there are would make the
  unsigned `new_len` huge. After a short send the `memcpy`
  of the rest may overlap itself, which C does not define;
  here the rest is moved whole.
-/
def peerPacketOps
    (bytesSent : Int)
    (q : PacketQueue) : Except QueueFault PacketQueue := do
  let (pq, q) ← q.packetPop
  match pq with
  | none => return q
  | some r =>
      match q.ends.mem r with
      | none => throw .nullNode
      | some node =>
          if bytesSent < 0 then
            return q
          else if (node.item.len : Int) < bytesSent then
            throw .packetBounds
          else
            let rest := unsent bytesSent.toNat node.item
            if 0 < rest.len then
              packetPush pq
                { q with ends := q.ends.put r ⟨rest, node.next⟩ }
            else
              packetFree pq q

end PacketQueue

end PeerNet

------------------------------------------------------------
-- Runs
------------------------------------------------------------

namespace PeerNet

open LinkedQueue

/- The calls of `queue.c` and of `peer_packet_ops`. -/
inductive QueueEvent where
  | init
  | new (n : NodeRef) (p : Packet) (a : Addr)
  | push (p : Option NodeRef)
  | pop
  | empty
  | free (p : Option NodeRef)
  | packetOps (bytesSent : Int)

/- A queue in use, and where the process stopped. -/
structure QueueRun where
  queue : PacketQueue
  fault : Option QueueFault

/-
  The entries of the calls: pushed since the last
  `packet_init` and not popped, the oldest first.
-/
def queued :
    List QueueCall → List (NodeRef × QueuedPacket)
| [] => []
| .init :: _ => []
| .push p d :: calls => queued calls ++ [(p, d)]
| .pop _ :: calls => (queued calls).tail
| .empty _ :: calls => queued calls

namespace QueueRun

/- The state at the start of the process. -/
def start : QueueRun where
  queue := .zero
  fault := none

/- The call an event stands for. -/
def handle :
    QueueEvent → PacketQueue → Except QueueFault PacketQueue
| .init, q => .ok q.packetInit
| .new n p a, q => q.packetNew n p a
| .push p, q => q.packetPush p
| .pop, q => q.packetPop.map Prod.snd
| .empty, q => .ok (q.note (.empty q.packetEmpty))
| .free p, q => q.packetFree p
| .packetOps bytesSent, q => q.peerPacketOps bytesSent

/- One event; a process at a fault does nothing more. -/
def step
    (s : QueueRun)
    (e : QueueEvent) : QueueRun :=
  if s.fault.isSome then
    s
  else
    match handle e s.queue with
    | .ok q => { s with queue := q }
    | .error fault => { s with fault := some fault }

/- A node is on the heap, leads nowhere and is not queued. -/
structure Detached
    (q : PacketQueue)
    (r : NodeRef) : Prop where
  cell : ∃ d, q.ends.mem r = some ⟨d, none⟩
  out : r ∉ refs (queued q.calls)

/-
  `malloc` returns an address that holds no node, a pushed
  node is not queued and leads nowhere, and a freed node is
  on the heap and not queued.
-/
def Allowed
    (s : QueueRun) :
    QueueEvent → Prop
| .new n _ _ => s.queue.ends.mem n = none
| .push (some r) => Detached s.queue r
| .free (some r) =>
    s.queue.ends.mem r ≠ none ∧
      r ∉ refs (queued s.queue.calls)
| _ => True

end QueueRun

end PeerNet
