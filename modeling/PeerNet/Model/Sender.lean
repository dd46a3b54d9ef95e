import PeerNet.Model.Receiver

/-
  The sending side: `process_get`, `send_data` and
  `process_ack` of `peer_sender.c`, the upload list of
  `bt_parse.c`, and `packet_sender` and `peer_cc` of
  `peer.c`.

  `peer_cc` walks the upload list and touches nothing but
  the entry under its cursor, so one pass is modelled entry
  by entry. `ccVisit` runs the loop on one entry until the
  cursor leaves it; besides what becomes of the entry and
  the packets it hands to `packet_new`, it counts how often
  the loop raised `dropped` and called `packet_sender` for a
  loss. `update_window_size` only writes a log and is left
  out.

  Key definitions include:
    * `dataPackets`
    * `processGet`
    * `ackSender`
    * `processAck`
    * `packetSender`
    * `ccVisit`
    * `peerCc`
-/

------------------------------------------------------------
-- The Upload List
------------------------------------------------------------

namespace PeerNet

/- The entry `add_sender_list` makes. -/
def newSender
    (hash : Hash)
    (packets : Option (List (Option Packet)))
    (numPackets : Int)
    (peer : PeerRef) : BtSender where
  hash := hash
  packets := packets
  numPackets := numPackets
  lastAcked := 0
  lastSent := 0
  windowSize := 1
  recvd := 0
  ssthresh := ssthreshInit
  state := .start
  retransmit := 0
  sentTime := 0
  dropped := 0
  peer := peer

namespace BtConfig

/- `add_sender_list`. -/
def addSenderList
    (sender : BtSender)
    (c : BtConfig) : BtConfig :=
  { c with upload := sender :: c.upload }

/- Does `find_sender_list` stop at this entry for `peer`? -/
def uploadsTo
    (c : BtConfig)
    (peer : PeerRef)
    (sender : BtSender) : Bool :=
  (c.peer sender.peer).id = (c.peer peer).id

end BtConfig

/- `find_sender_list`. -/
def findSenderList
    (c : BtConfig)
    (peer : PeerRef) : Option BtSender :=
  c.upload.find? (c.uploadsTo peer)

/- Update the first entry that meets `p`. -/
def updateFirst
    {α : Type}
    (p : α → Bool)
    (f : α → α) :
    List α → List α
| [] => []
| x :: xs => if p x then f x :: xs else x :: updateFirst p f xs

end PeerNet

------------------------------------------------------------
-- Serving a GET
------------------------------------------------------------

namespace PeerNet

/-
  The loop of `send_data` that cuts the chunk: `count`
  packets are left, the next one numbered `i`, and
  `chunkBytes` bytes are cut already. The second component
  is `chunk_bytes` at the end.
-/
def cutPackets
    (filechunk : Bytes)
    (readBytes : Nat) :
    Nat → Int → Nat → List Packet × Nat
| 0, _, chunkBytes => ([], chunkBytes)
| count + 1, i, chunkBytes =>
    let bufLen := min (readBytes - chunkBytes) maxDataSize
    let packet : Packet :=
      { header :=
          initPacketHead typeData 16 (16 + bufLen) i 0
        buf := (filechunk.drop chunkBytes).take bufLen }
    let tail :=
      cutPackets filechunk readBytes count (i + 1)
        (chunkBytes + bufLen)
    (packet :: tail.1, tail.2)

/- `num_packets`. -/
def numPackets
    (readBytes : Nat) : Nat :=
  let n := readBytes / maxDataSize
  if n * maxDataSize < readBytes then n + 1 else n

/- The packets for the first `readBytes` bytes of a chunk. -/
def dataPackets
    (filechunk : Bytes)
    (readBytes : Nat) : List Packet :=
  (cutPackets filechunk readBytes (numPackets readBytes)
    1 0).1

/-
  What `send_data` reads for a hash: the chunk buffer and the
  number of bytes read; `none` is an error return.
-/
def dataChunk
    (env : Env)
    (files : Files)
    (config : BtConfig)
    (hash : Hash) : Except Fault (Option (Bytes × Nat)) := do
  let id ← hasChunk env files config hash
  if id < 0 then
    return none
  else
    match ← masterDataFile env files config with
    | none => return none
    | some filename =>
        match files.content filename with
        | none => return none
        | some data =>
            match ← readChunk data id with
            | none => return none
            | some bytes =>
                let filechunk := env.fill btChunkSize bytes
                if hashEqual hash
                    (env.shahash filechunk) then
                  return some (filechunk, bytes.length)
                else
                  return none

/- `send_data`. -/
def sendData
    (env : Env)
    (dest : Addr)
    (hash : Hash) : Prog Int := do
  let n ← get
  match ← lift (dataChunk env n.files n.config hash) with
  | none => return -1
  | some (filechunk, readBytes) =>
      let count := numPackets readBytes
      let cut := cutPackets filechunk readBytes count 1 0
      if cut.2 ≠ readBytes then
        return -1
      else
        match peerWithAddr dest n.config with
        | none => throw .dataPeer
        | some peer =>
            modify (Node.onConfig (BtConfig.addSenderList
              (newSender hash (some (cut.1.map some)) count
                peer)))
            return 0

/- `process_get`. -/
def processGet
    (env : Env)
    (src : Addr)
    (packet : Packet) : Prog Int := do
  let c := (← get).config
  match peerWithAddr src c with
  | none => return -1
  | some peer =>
      if (findSenderList c peer).isSome then
        return -1
      else if (packet.header.packetLen.toNat : Int) -
          packet.header.headerLen.toNat ≠ 20 then
        return -1
      else if packet.buf.length < 20 then
        throw .packetRead
      else
        sendData env src (hashOfBytes packet.buf)

end PeerNet

------------------------------------------------------------
-- Acknowledgements
------------------------------------------------------------

namespace PeerNet

/- The effect of an ACK number on an upload's counters. -/
def countAck
    (ackNum : UInt32)
    (s : BtSender) : BtSender :=
  if toUInt32 s.lastAcked = ackNum.toNat then
    { s with retransmit := toChar (s.retransmit + 1) }
  else if toUInt32 s.lastAcked < ackNum.toNat then
    { s with
      lastAcked := toInt32 ackNum
      retransmit := 0
      dropped := 0 }
  else
    s

/-
  Slow start and congestion avoidance in `process_ack`. To
  widen a window to the end of `int` takes more than 2^60
  ACKs; `window_size` itself does not wrap here.
-/
def growWindow
    (s : BtSender) : BtSender :=
  match s.state with
  | .start =>
      { s with
        windowSize := s.windowSize + 1
        state :=
          if s.ssthresh < s.windowSize + 1 then .avoid
          else .start }
  | .avoid =>
      if s.recvd + 1 = s.windowSize then
        { s with
          windowSize := s.windowSize + 1
          recvd := 0 }
      else
        { s with recvd := s.recvd + 1 }

/- What `process_ack` does to the upload it finds. -/
def ackSender
    (ackNum : UInt32)
    (s : BtSender) : BtSender :=
  growWindow (countAck ackNum s)

/- `process_ack`. -/
def processAck
    (src : Addr)
    (packet : Packet) : Prog Int := do
  let c := (← get).config
  match peerWithAddr src c with
  | none => return 0
  | some peer =>
      match findSenderList c peer with
      | none => return -1
      | some _ =>
          modify (Node.onConfig fun c =>
            { c with
              upload :=
                updateFirst (c.uploadsTo peer)
                  (ackSender packet.header.ackNum)
                  c.upload })
          return 0

end PeerNet

------------------------------------------------------------
-- Sending a Window
------------------------------------------------------------

namespace PeerNet

/- The end of `packet_sender`'s loop. -/
inductive SendEnd where
  | complete
  | nullPacket
  | outOfRange
deriving DecidableEq

/- The loop of `packet_sender`, `count` rounds from index `i`. -/
def sendPackets
    (packets : List (Option Packet)) :
    Nat → Int → List Packet × SendEnd
| 0, _ => ([], .complete)
| count + 1, i =>
    if i < 0 then
      ([], .outOfRange)
    else
      match packets[i.toNat]? with
      | none => ([], .outOfRange)
      | some none => ([], .nullPacket)
      | some (some packet) =>
          let tail := sendPackets packets count (i + 1)
          (packet :: tail.1, tail.2)

/- What a call of `packet_sender` leaves behind. -/
structure SendResult where
  sender : BtSender
  reads : Nat
  queued : List Packet
  inRange : Bool

/- `time(NULL)`, at a reading of the clock. -/
def timeSeconds
    (env : Env)
    (reads : Nat) : Int :=
  env.clock reads / 1000

/- `send_up_to`. -/
def sendUpTo
    (s : BtSender)
    (start : Int) : Int :=
  min (wrapInt (wrapInt (start + s.windowSize) - 1))
    s.numPackets

/- `packet_sender`. -/
def packetSender
    (env : Env)
    (reads : Nat)
    (s : BtSender)
    (start : Int) : SendResult :=
  match s.packets with
  | none => ⟨s, reads, [], true⟩
  | some packets =>
      let first := wrapInt (start - 1)
      let upTo := sendUpTo s start
      let loop :=
        sendPackets packets (upTo - first).toNat first
      match loop.2 with
      | .outOfRange => ⟨s, reads, loop.1, false⟩
      | .nullPacket => ⟨s, reads, loop.1, true⟩
      | .complete =>
          ⟨{ s with
              sentTime := timeSeconds env reads
              lastSent := upTo },
            reads + 1, loop.1, true⟩

end PeerNet

------------------------------------------------------------
-- Congestion Control
------------------------------------------------------------

namespace PeerNet

/- What becomes of an upload when the cursor leaves it. -/
inductive CcEnd where
  | kept (s : BtSender)
  | finished
  | dead
  | fault (f : Fault)
deriving DecidableEq

/- One upload's part of a pass of `peer_cc`. -/
structure CcVisit where
  ending : CcEnd
  reads : Nat
  queued : List Packet
  charges : Nat
  resent : Nat
deriving DecidableEq

/- More than `CC_TIMEOUT` seconds since the last sending. -/
def timedOut
    (env : Env)
    (reads : Nat)
    (s : BtSender) : Bool :=
  ccTimeout < timeSeconds env reads - s.sentTime ∧
    s.sentTime ≠ 0

/- Two duplicate ACKs. -/
def lostPacket
    (s : BtSender) : Bool :=
  2 ≤ s.retransmit

/- `dropped` after the two loss tests. -/
def chargedDropped
    (env : Env)
    (reads : Nat)
    (s : BtSender) : Int :=
  let dropped :=
    if lostPacket s then toChar (s.dropped + 1)
    else s.dropped
  if timedOut env reads s then toChar (dropped + 1)
  else dropped

/- How often the two loss tests raise `dropped`. -/
def lossCharges
    (env : Env)
    (reads : Nat)
    (s : BtSender) : Nat :=
  (if lostPacket s then 1 else 0) +
    (if timedOut env reads s then 1 else 0)

/- The window after a loss. -/
def collapseWindow
    (s : BtSender) : BtSender :=
  { s with
    state := .start
    ssthresh := max (Int.tdiv s.windowSize 2) 2
    windowSize := 1 }

/- A visit, preceded by one round of the loop. -/
def CcVisit.after
    (queued : List Packet)
    (charges resent : Nat)
    (v : CcVisit) : CcVisit :=
  { v with
    queued := queued ++ v.queued
    charges := charges + v.charges
    resent := resent + v.resent }

/-
  The loop of `peer_cc` on one upload. A round that handles
  a loss does not move the cursor; it ends the visit only by
  raising `dropped` above five.
-/
def ccVisit
    (env : Env) :
    Nat → Nat → BtSender → CcVisit
| 0, reads, _ => ⟨.fault .hang, reads, [], 0, 0⟩
| fuel + 1, reads, s =>
    if s.numPackets = s.lastAcked then
      ⟨.finished, reads, [], 0, 0⟩
    else
      let charges := lossCharges env reads s
      let s' :=
        { s with dropped := chargedDropped env reads s }
      if 5 < s'.dropped then
        ⟨.dead, reads + 1, [], charges, 0⟩
      else if lostPacket s ∨ timedOut env reads s then
        let sent :=
          packetSender env (reads + 1) (collapseWindow s')
            (wrapInt (s.lastAcked + 1))
        if sent.inRange then
          (ccVisit env fuel sent.reads sent.sender).after
            sent.queued charges 1
        else
          ⟨.fault .packetIndex, sent.reads, sent.queued,
            charges, 1⟩
      else if s.lastAcked = s.lastSent then
        let sent :=
          packetSender env (reads + 1) s'
            (wrapInt (s.lastAcked + 1))
        if sent.inRange then
          ⟨.kept sent.sender, sent.reads, sent.queued, 0,
            0⟩
        else
          ⟨.fault .packetIndex, sent.reads, sent.queued, 0,
            0⟩
      else
        ⟨.kept s', reads + 1, [], 0, 0⟩

/-
  Rounds enough for every visit: each round but the last
  raises the `char` `dropped`.
-/
def ccFuel : Nat := 257

/-
  A pass over the uploads, each with its visit, up to the
  first fault.
-/
def ccPass
    (env : Env) :
    Nat → List BtSender → List (BtSender × CcVisit)
| _, [] => []
| reads, s :: rest =>
    let v := ccVisit env ccFuel reads s
    match v.ending with
    | .fault _ => [(s, v)]
    | _ => (s, v) :: ccPass env v.reads rest

/- The upload that is still in the list after its visit. -/
def CcEnd.remaining :
    CcEnd → Option BtSender
| .kept s => some s
| _ => none

/- Queue what one visit hands to `packet_new`. -/
def queueVisit
    (c : BtConfig)
    (sv : BtSender × CcVisit) : Prog Unit :=
  sv.2.queued.forM fun packet =>
    packetNew packet (c.peer sv.1.peer).addr

/- `peer_cc`. -/
def peerCc
    (env : Env) : Prog Unit := do
  let n ← get
  let visits := ccPass env n.reads n.config.upload
  visits.forM (queueVisit n.config)
  modify fun n =>
    { n with
      config :=
        { n.config with
          upload :=
            visits.filterMap (·.2.ending.remaining) }
      reads :=
        (visits.getLast?.map (·.2.reads)).getD n.reads }
  match visits.getLast? with
  | some (_, { ending := .fault f, .. }) => throw f
  | _ => return ()

end PeerNet
