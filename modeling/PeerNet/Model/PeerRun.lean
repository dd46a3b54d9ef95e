import PeerNet.Model.Queue
import PeerNet.Model.Spiffy
import PeerNet.Model.System
import PeerNet.Model.UserCommand

/-
  The loop of `peer_run`, and peers that run it around a
  router.

  A process has, besides what its handlers work on, the
  packets that wait to be sent, as the bytes that
  `packet_new` made of them, the buffer of the command line
  and the globals of `spiffy.c`. A turn of the loop runs the
  timers and then, if `select` found something, sends one
  waiting packet, reads one datagram and reads the command
  line, in this order.

  `Cluster` has a process at every address. What goes out is
  on the wire for good: the router may deliver a frame to the
  process in its head at any time, any number of times or
  never.

  What `select`, `recvfrom`, `read` and `sendto` return is an
  argument of a turn.

  Main declarations:
    * `PeerProcess`
    * `PeerProcess.turn`
    * `Cluster.step`
-/

------------------------------------------------------------
-- One Turn
------------------------------------------------------------

namespace PeerNet

/- What `packet_new` keeps of a packet. -/
def queuedPacket
    (d : Datagram) : QueuedPacket where
  buf := encodePacket d.packet
  len := d.packet.header.packetLen.toNat
  destAddr := d.destAddr

/- A process in `peer_run`; has it called `exit`? -/
structure PeerProcess where
  node : Node
  packets : List QueuedPacket
  spiffy : Spiffy
  userbuf : UserIobuf
  exited : Bool

/-
  What a turn meets: is the result of `select` positive, can
  the socket be written, what comes from the socket and from
  the command line, and what does `sendto` return?
-/
structure Turn where
  selected : Bool
  writable : Bool
  inbound : Option (Addr × Bytes)
  typed : Option Bytes
  sendto : Bytes → Int

namespace PeerProcess

/- A call; what it queues goes behind what waits. -/
def call
    (x : Prog Unit)
    (s : PeerProcess) : PeerProcess :=
  let n := s.node.exec x
  { s with
    node := { n with queue := [] }
    packets := s.packets ++ n.queue.map queuedPacket }

/- The calls at the head of the loop's body. -/
def timers
    (env : Env)
    (s : PeerProcess) : PeerProcess :=
  ((s.call (timeoutCheck env)).call (getAllTheThingz env)).call
    (peerCc env)

/-
  `peer_packet_ops`, and what goes out: as many bytes of the
  frame as `sendto` takes. The rest of a packet goes behind
  what waits, and a packet that could not be sent is gone.
-/
def packetOps
    (sendto : Bytes → Int)
    (s : PeerProcess) : PeerProcess × List Bytes :=
  if s.node.fault.isSome then
    (s, [])
  else
    match s.packets with
    | [] => (s, [])
    | pq :: packets =>
        let frame :=
          (s.spiffy.frame (pq.buf.take pq.len)
            pq.destAddr).1
        let result := sendto frame
        let out :=
          if result < 0 then []
          else [frame.take result.toNat]
        let bytesSent := s.spiffy.sent result
        if bytesSent < 0 then
          ({ s with packets := packets }, out)
        else if (pq.len : Int) < bytesSent then
          ({ s with
              node :=
                { s.node with fault := some .bufferOverflow } },
            out)
        else
          let rest := PacketQueue.unsent bytesSent.toNat pq
          if 0 < rest.len then
            ({ s with packets := packets ++ [rest] }, out)
          else
            ({ s with packets := packets }, out)

/- `process_inbound_udp`, if there is something to read. -/
def inboundOps
    (env : Env)
    (inbound : Option (Addr × Bytes))
    (s : PeerProcess) : PeerProcess :=
  match inbound with
  | none => s
  | some (src, datagram) =>
      s.call (inboundUdp env s.spiffy src datagram)

/- `process_user_input`, if there is something to read. -/
def userOps
    (env : Env)
    (typed : Option Bytes)
    (s : PeerProcess) : PeerProcess :=
  match typed with
  | none => s
  | some data =>
      if s.node.fault.isSome then
        s
      else
        match s.userbuf.processUserInput data with
        | none => { s with exited := true }
        | some (lines, userbuf) =>
            lines.foldl
              (fun s line => s.call (handleUserInput env line))
              { s with userbuf := userbuf }

/- The body of the loop, and what goes out in it. -/
def turn
    (env : Env)
    (t : Turn)
    (s : PeerProcess) : PeerProcess × List Bytes :=
  if s.exited then
    (s, [])
  else
    let s := s.timers env
    if t.selected then
      let (s, out) :=
        if t.writable then s.packetOps t.sendto else (s, [])
      ((s.inboundOps env t.inbound).userOps env t.typed, out)
    else
      (s, [])

/- A process at the head of the loop for the first time. -/
def start
    (node : Node)
    (spiffy : Spiffy) : PeerProcess where
  node := node
  packets := []
  spiffy := spiffy
  userbuf := .createUserbuf
  exited := false

end PeerProcess

end PeerNet

------------------------------------------------------------
-- Peers Around a Router
------------------------------------------------------------

namespace PeerNet

/- A process at every address, and what they sent. -/
structure Cluster where
  proc : Addr → PeerProcess
  wire : List Bytes

namespace Cluster

/- Processes with an enabled router, nothing sent yet. -/
def start
    (node : Addr → Node)
    (router : Addr) : Cluster where
  proc := fun a =>
    .start (node a)
      (.init (node a).config.identity a (some router))
  wire := []

/- The process at `a` does a turn. -/
def step
    (env : Addr → Env)
    (κ : Cluster)
    (e : Addr × Turn) : Cluster :=
  let r := (κ.proc e.1).turn (env e.1) e.2
  { proc := Function.update κ.proc e.1 r.1
    wire := κ.wire ++ r.2 }

/-
  The router hands on what it got to the process whose
  address the head names, and the socket takes a datagram as
  a whole or not at all.
-/
structure Routed
    (κ : Cluster)
    (e : Addr × Turn) : Prop where
  inbound : ∀ src datagram,
    e.2.inbound = some (src, datagram) →
      datagram ∈ κ.wire ∧
        (SpiffyHeader.decode datagram).dest = e.1
  sendto : ∀ frame,
    e.2.sendto frame < 0 ∨ e.2.sendto frame = frame.length

end Cluster

end PeerNet
