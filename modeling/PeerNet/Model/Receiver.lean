import PeerNet.Model.Lookup
import PeerNet.Model.PacketList

/-
  The receiving side: `peer_receiver.c`, with the functions
  of `bt_parse.c` and `queue.c` it calls and
  `process_user_get` of `peer.c`.

  Assignments that C makes one after another to one peer and
  one chunk, with nothing in between that looks at them, are
  one update of the configuration: `assign`, `release`,
  `giveUp`. Everything that may fault or reads the clock is
  a step of its own.

  Key definitions include:
    * `timeoutCheck`
    * `sendGet`
    * `getAllTheThingz`
    * `addPacket`
    * `finishChunk`
    * `finishGet`
    * `processIhave`
    * `processData`
    * `processUserGet`
-/

------------------------------------------------------------
-- Access to the Configuration
------------------------------------------------------------

namespace PeerNet

namespace BtConfig

/- Update one entry of the peer list. -/
@[simps]
def setPeer
    (p : PeerRef)
    (f : BtPeer → BtPeer)
    (c : BtConfig) : BtConfig :=
  { c with peer := Function.update c.peer p (f (c.peer p)) }

/- Update one node of the download list. -/
@[simps]
def setChunk
    (r : ChunkRef)
    (f : BtChunk → BtChunk)
    (c : BtConfig) : BtConfig :=
  { c with
    chunk := Function.update c.chunk r ((c.chunk r).map f) }

end BtConfig

/- The nodes of the download list, in list order. -/
def downloadChunks
    (c : BtConfig) : List BtChunk :=
  c.download.filterMap c.chunk

/- `peer_with_addr`. -/
def peerWithAddr
    (addr : Addr)
    (c : BtConfig) : Option PeerRef :=
  c.peers.find? fun p =>
    (c.peer p).addr.sAddr = addr.sAddr ∧
      (c.peer p).addr.sinPort = addr.sinPort

/- `chunk_with_id`. -/
def chunkWithId
    (id : Int)
    (c : BtConfig) : Option BtChunk :=
  (downloadChunks c).find? fun chunk => chunk.id = id

/- Follow a pointer to a node of the download list. -/
def derefChunk
    (r : ChunkRef) : Prog BtChunk := do
  match (← get).config.chunk r with
  | none => throw .freedChunk
  | some chunk => return chunk

/- The result of a pure part of a call. -/
def lift
    {α : Type}
    (x : Except Fault α) : Prog α :=
  match x with
  | .ok a => pure a
  | .error f => throw f

/- `time_millis`. -/
def timeMillis
    (env : Env) : Prog Int := do
  let n ← get
  set { n with reads := n.reads + 1 }
  return env.clock n.reads

/- `packet_new`: copy head and payload and append them. -/
def packetNew
    (p : Packet)
    (a : Addr) : Prog Unit :=
  let len := p.header.packetLen.toNat
  let payload := p.buf.take (len - packetHeadSize)
  if len < packetHeadSize then
    throw .bufferOverflow
  else if p.buf.length < len - packetHeadSize then
    throw .packetRead
  else
    modify fun n =>
      { n with
        queue := n.queue ++ [⟨⟨p.header, payload⟩, a⟩] }

end PeerNet

------------------------------------------------------------
-- Timeouts
------------------------------------------------------------

namespace PeerNet

namespace BtConfig

/- The assignments of `timeout_check` to a peer gone bad. -/
def giveUp
    (cur : PeerRef)
    (r : ChunkRef)
    (packets : BtPackets)
    (now : Int)
    (c : BtConfig) : BtConfig :=
  (c.setChunk r fun chunk =>
    { chunk with
      peer := none
      nextExpected := initSeqnum
      totalData := 0
      downloaded := false
      packets := packets }).setPeer cur fun peer =>
    { peer with
      badTime := now
      downloading := false
      lastResponse := -1
      chunk := none }

/- `consec_timeouts++`. -/
def countTimeout
    (cur : PeerRef)
    (c : BtConfig) : BtConfig :=
  c.setPeer cur fun peer =>
    { peer with consecTimeouts := peer.consecTimeouts + 1 }

end BtConfig

/- The body of `timeout_check`'s loop. -/
def timeoutPeer
    (env : Env)
    (curTime : Int)
    (cur : PeerRef) : Prog Unit := do
  let peer := (← get).config.peer cur
  if peer.lastResponse ≠ -1 ∧
      timeoutMillis < curTime - peer.lastResponse then
    modify (Node.onConfig (BtConfig.countTimeout cur))
    if maxTimeouts ≤ peer.consecTimeouts + 1 then
      let now ← timeMillis env
      match peer.chunk with
      | none => throw .timeoutChunk
      | some r =>
          let chunk ← derefChunk r
          let packets ← lift (delPacketList chunk.packets)
          modify (Node.onConfig
            (BtConfig.giveUp cur r packets now))

/- `timeout_check`. -/
def timeoutCheck
    (env : Env) : Prog Unit := do
  let c := (← get).config
  if c.download ≠ [] then
    let curTime ← timeMillis env
    c.peers.forM (timeoutPeer env curTime)

/- `is_bad`. -/
def isBad
    (env : Env)
    (peer : BtPeer) : Prog Bool := do
  if peer.badTime ≠ 0 then
    let now ← timeMillis env
    return now - peer.badTime < badResetMillis
  else
    return false

end PeerNet

------------------------------------------------------------
-- Requests
------------------------------------------------------------

namespace PeerNet

/- The WHOHAS packet of `send_whohas`. -/
def whohasPacket
    (env : Env)
    (c : BtConfig) : Packet where
  header :=
    initPacketHead typeWhohas 16
      (16 + 4 + c.numChunks * 20) 0 0
  buf :=
    env.fill (4 + 20 * c.numChunks.toNat)
      (UInt8.ofInt c.numChunks :: 0 :: 0 :: 0 ::
        (downloadChunks c).flatMap
          (fun chunk => chunk.hash.toList))

/- `send_whohas`. -/
def sendWhohas
    (env : Env) : Prog Int := do
  let c := (← get).config
  if c.download = [] then
    return 0
  else
    let now ← timeMillis env
    if now - c.lastWhohas < whohasMillis then
      return 0
    else
      let now ← timeMillis env
      modify (Node.onConfig
        fun c => { c with lastWhohas := now })
      if c.numChunks < (downloadChunks c).length then
        throw .whohasOverflow
      else
        c.peers.forM fun peer =>
          if (c.peer peer).id ≠ c.identity then
            packetNew (whohasPacket env c) (c.peer peer).addr
          else
            pure ()
        return 0

namespace BtConfig

/- `config->max_conn++`, where that is still an `int`. -/
@[simps]
def raiseMaxConn
    (c : BtConfig) : BtConfig :=
  { c with maxConn := c.maxConn + 1 }

/- The assignments of `send_get` to a peer and its chunk. -/
def assign
    (p : PeerRef)
    (r : ChunkRef)
    (now : Int)
    (c : BtConfig) : BtConfig :=
  (c.setPeer p fun peer =>
    { peer with
      chunk := some r
      downloading := true
      lastResponse := now }).setChunk r fun chunk =>
    { chunk with
      peer := some p
      nextExpected := initSeqnum
      packets := .live [] }

end BtConfig

/- The GET packet for a hash. -/
def getPacket
    (hash : Hash) : Packet where
  header := initPacketHead typeGet 16 (16 + 20) 0 0
  buf := hash.toList

/- `send_get`. -/
def sendGet
    (env : Env)
    (dest : Addr)
    (r : ChunkRef) : Prog Int := do
  let c := (← get).config
  if c.maxConn ≤ c.curDownload then
    return -1
  else
    modify (Node.onConfig BtConfig.raiseMaxConn)
    match peerWithAddr dest c with
    | none => throw .getPeer
    | some p =>
        let now ← timeMillis env
        modify (Node.onConfig (BtConfig.assign p r now))
        let chunk ← derefChunk r
        modify (Node.emit (.sendGet r chunk))
        packetNew (getPacket chunk.hash) dest
        return 0

/-
  The loop of `get_all_the_thingz` over the peers that have
  a chunk; the value is `all_bad`.
-/
def scanPeers
    (env : Env)
    (r : ChunkRef) :
    List PeerRef → Bool → Prog Bool
| [], allBad => pure allBad
| p :: rest, allBad => do
    let bad ← isBad env ((← get).config.peer p)
    let allBad := allBad && bad
    let peer := (← get).config.peer p
    if peer.downloading then
      scanPeers env r rest allBad
    else
      let bad ← isBad env peer
      if bad then
        scanPeers env r rest allBad
      else
        let _ ← sendGet env peer.addr r
        return allBad

/- The loop of `get_all_the_thingz` over the download list. -/
def scanChunks
    (env : Env) :
    List ChunkRef → Prog Unit
| [] => pure ()
| r :: rest => do
    let c := (← get).config
    if c.curDownload < c.maxConn then
      let chunk ← derefChunk r
      if chunk.downloaded = false ∧ chunk.peer = none then
        let allBad ← scanPeers env r chunk.peers true
        if allBad then
          let _ ← sendWhohas env
      scanChunks env rest
    else
      pure ()

/- `get_all_the_thingz`. -/
def getAllTheThingz
    (env : Env) : Prog Unit := do
  scanChunks env (← get).config.download

end PeerNet

------------------------------------------------------------
-- Announcements
------------------------------------------------------------

namespace PeerNet

namespace BtConfig

/- `add_peer_list`. -/
def addPeerList
    (r : ChunkRef)
    (p : PeerRef)
    (c : BtConfig) : BtConfig :=
  c.setChunk r fun chunk =>
    { chunk with peers := p :: chunk.peers }

/- A peer was heard from. -/
def clearBad
    (p : PeerRef)
    (c : BtConfig) : BtConfig :=
  c.setPeer p fun peer =>
    { peer with consecTimeouts := 0, badTime := 0 }

end BtConfig

/-
  The loop of `process_ihave`: `count` hashes are left, the
  next one at `offset` of the payload.
-/
def ihaveLoop
    (p : PeerRef)
    (buf : Bytes) :
    Nat → Nat → Int → Prog Int
| 0, _, _ => pure 0
| count + 1, offset, datalen => do
    if datalen < 20 then
      return -1
    else if buf.length < offset + 20 then
      throw .packetRead
    else
      let hash := hashOfBytes (buf.drop offset)
      let c := (← get).config
      let found := c.download.find? fun r =>
        (c.chunk r).any fun chunk =>
          hashEqual hash chunk.hash
      match found with
      | none => pure ()
      | some r =>
          modify (Node.onConfig (BtConfig.addPeerList r p))
      ihaveLoop p buf count (offset + 20)
        (toShort (datalen - 20))

/- `datalen` of `process_ihave`, a `short`. -/
def ihaveDatalen
    (h : PacketHead) : Int :=
  toShort (h.packetLen.toNat - packetHeadSize)

/- `process_ihave`. -/
def processIhave
    (src : Addr)
    (packet : Packet) : Prog Int := do
  let c := (← get).config
  if c.download = [] then
    return 0
  else
    match peerWithAddr src c with
    | none => throw .ihavePeer
    | some p =>
        modify (Node.onConfig (BtConfig.clearBad p))
        match packet.buf with
        | [] => throw .packetRead
        | numchunks :: _ =>
            ihaveLoop p packet.buf
              (toChar numchunks.toNat).toNat 4
              (toShort (ihaveDatalen packet.header - 4))

end PeerNet

------------------------------------------------------------
-- Finishing a GET
------------------------------------------------------------

namespace PeerNet

/- Replace the content of a file. -/
def Files.write
    (path : Path)
    (bytes : Bytes)
    (files : Files) : Files :=
  { files with
    content :=
      Function.update files.content path (some bytes) }

/- Append to a file, which is created if it is not there. -/
def Files.append
    (path : Path)
    (bytes : Bytes)
    (files : Files) : Files :=
  files.write path
    ((files.content path).getD [] ++ bytes)

@[simps]
def Node.onFiles
    (f : Files → Files)
    (n : Node) : Node :=
  { n with files := f n.files }

/- `write_to_file`, to the output file. -/
def writeToFile
    (packets : BtPackets) : Prog Unit := do
  match packets with
  | .freed => throw .freedPackets
  | .live nodes =>
      let bytes ← lift (packetBytes nodes)
      let out := (← get).config.outputFile
      modify (Node.onFiles (Files.append out bytes))

/-
  The bytes that `finish_get` takes from the master data file
  for a chunk with id `id`; `none` is an error return.
-/
def masterBytes
    (env : Env)
    (files : Files)
    (config : BtConfig)
    (hash : Hash)
    (id : Int) : Except Fault (Option Bytes) := do
  match ← masterDataFile env files config with
  | none => return none
  | some filename =>
      match files.content filename with
      | none => return none
      | some data =>
          match ← readChunk data id with
          | none => return none
          | some bytes =>
              let filechunk := env.fill btChunkSize bytes
              if hashEqual hash (env.shahash filechunk) then
                return some filechunk
              else
                return none

/-
  One chunk of `finish_get`'s loop; `false` is a return. What
  is written can be read at once: that the last bytes wait in
  the buffer of an output file which a return leaves open is
  not modelled.
-/
def finishGetChunk
    (env : Env)
    (nextChunk : Int) : Prog Bool := do
  let n ← get
  match chunkWithId nextChunk n.config with
  | none => throw .finishGetChunk
  | some next =>
      let realId ←
        lift (hasChunk env n.files n.config next.hash)
      if realId ≠ -1 then
        let bytes ← lift
          (masterBytes env n.files n.config next.hash
            realId)
        match bytes with
        | none => return false
        | some filechunk =>
            modify (Node.onFiles
              (Files.append n.config.outputFile filechunk))
            return true
      else
        writeToFile next.packets
        return true

/- `for (next_chunk = 0; next_chunk < num_chunks; …)`. -/
def finishGetLoop
    (env : Env) :
    Nat → Int → Prog Bool
| 0, _ => pure true
| count + 1, nextChunk => do
    let go ← finishGetChunk env nextChunk
    if go then
      finishGetLoop env count (nextChunk + 1)
    else
      return false

/- The packet list of a chunk that `free`s it is not dangling. -/
def chunkFreeable
    (chunk : BtChunk) : Bool :=
  chunk.packets ≠ .freed

/- The list is freed, chunk by chunk. -/
@[simps]
def BtConfig.dropDownload
    (c : BtConfig) : BtConfig :=
  { c with
    download := []
    chunk := fun r =>
      if r ∈ c.download then none else c.chunk r }

/- `del_receiver_list`. -/
def delReceiverList : Prog Unit := do
  let c := (← get).config
  if (downloadChunks c).all chunkFreeable then
    modify (Node.onConfig BtConfig.dropDownload)
  else
    throw .freedPackets

/- `finish_get`. -/
def finishGet
    (env : Env) : Prog Unit := do
  let n ← get
  modify (Node.emit (.finishGet n.config n.files))
  if n.files.writable n.config.outputFile then
    modify (Node.onFiles (Files.write n.config.outputFile []))
    let go ← finishGetLoop env n.config.numChunks.toNat 0
    if go then
      modify (Node.emit (.got n.config.getChunkFile))
      delReceiverList

end PeerNet

------------------------------------------------------------
-- Data
------------------------------------------------------------

namespace PeerNet

namespace BtConfig

/- The assignments at the head of `finish_chunk`. -/
@[simps]
def release
    (p : PeerRef)
    (r : ChunkRef)
    (c : BtConfig) : BtConfig :=
  { (c.setPeer p fun peer =>
      { peer with
        downloading := false
        lastResponse := -1
        chunk := none }).setChunk r fun chunk =>
      { chunk with peer := none } with
    curDownload := c.curDownload - 1 }

/- A chunk is recorded as downloaded. -/
@[simps]
def markDownloaded
    (r : ChunkRef)
    (c : BtConfig) : BtConfig :=
  { c.setChunk r fun chunk =>
      { chunk with downloaded := true } with
    numDownloaded := c.numDownloaded + 1 }

/- DATA was accepted from a peer. -/
def heardData
    (p : PeerRef)
    (now : Int)
    (c : BtConfig) : BtConfig :=
  c.setPeer p fun peer =>
    { peer with
      consecTimeouts := 0
      badTime := 0
      lastResponse := now }

end BtConfig

/- The line `finish_chunk` appends to the has-chunk file. -/
def hasChunkLine
    (id : Int)
    (hash : Hash) : Bytes :=
  Scanf.printInt id ++ 32 :: binary2hex hash ++ [10]

/- Recording a chunk whose hash was verified. -/
def recordChunk
    (env : Env)
    (r : ChunkRef)
    (hash : Hash) : Prog Unit := do
  let n ← get
  modify (Node.onFiles
    (Files.append n.config.hasChunkFile []))
  let files := (← get).files
  let id ← lift (masterChunk env files n.config hash)
  modify (Node.onFiles
    (Files.append n.config.hasChunkFile
      (hasChunkLine id hash)))
  modify (Node.onConfig (BtConfig.markDownloaded r))
  let c := (← get).config
  if c.numDownloaded = c.numChunks then
    finishGet env

/- `finish_chunk`. -/
def finishChunk
    (env : Env)
    (r : ChunkRef) : Prog Unit := do
  let chunk ← derefChunk r
  modify (Node.emit (.finishChunk r chunk.packets))
  match chunk.peer with
  | none => throw .finishPeer
  | some p =>
      modify (Node.onConfig (BtConfig.release p r))
      match chunk.packets with
      | .freed => throw .freedPackets
      | .live nodes =>
          let buffer ← lift (writeToBuffer env nodes)
          if hashEqual chunk.hash (env.shahash buffer) then
            let n ← get
            if n.files.writable n.config.hasChunkFile then
              recordChunk env r chunk.hash
            else
              modify (Node.emit (.hasChunkError r))
          else
            modify (Node.emit (.hashMismatch r))

/- `data_len`: below zero the `size_t` is a huge one. -/
def addPacketDataLen
    (h : PacketHead) : Int :=
  h.packetLen.toNat - packetHeadSize

/-
  `add_packet`. The payload is `data_len` bytes of the
  buffer; it is read unless the packet is a duplicate.
-/
def addPacket
    (env : Env)
    (r : ChunkRef)
    (packet : Packet) : Prog Int := do
  let seqNum := toInt32 packet.header.seqNum
  let dataLen := addPacketDataLen packet.header
  let data := packet.buf.take dataLen.toNat
  let chunk ← derefChunk r
  match chunk.packets with
  | .freed => throw .freedPackets
  | .live nodes =>
      if (storePacket nodes seqNum data).isSome ∧
          (dataLen < 0 ∨ packet.buf.length < dataLen) then
        throw .packetRead
      else
        let chunk := addPacketList chunk nodes seqNum data
        modify (Node.onConfig
          (BtConfig.setChunk r fun _ => chunk))
        if btChunkSize ≤ chunk.totalData then
          finishChunk env r
        return chunk.nextExpected

/- The ACK packet with a number. -/
def ackPacket
    (ackNum : Int) : Packet where
  header := initPacketHead typeAck 16 16 0 ackNum
  buf := []

/- `send_ack`. -/
def sendAck
    (dest : Addr)
    (ackNum : Int) : Prog Unit :=
  packetNew (ackPacket ackNum) dest

/- `process_data`. -/
def processData
    (env : Env)
    (src : Addr)
    (packet : Packet) : Prog Int := do
  let c := (← get).config
  match peerWithAddr src c with
  | none => return 0
  | some p =>
      match (c.peer p).chunk with
      | none => return 0
      | some r =>
          let now ← timeMillis env
          modify (Node.onConfig (BtConfig.heardData p now))
          let seqNum := toInt32 packet.header.seqNum
          if maxSeqnum < seqNum ∨ seqNum < initSeqnum then
            return -1
          else
            let nextExpected ← addPacket env r packet
            sendAck src (nextExpected - 1)
            return 0

end PeerNet

------------------------------------------------------------
-- User Requests
------------------------------------------------------------

namespace PeerNet

namespace BtConfig

/- `reset_peers`, for one peer. -/
def resetPeer
    (peer : BtPeer) : BtPeer :=
  { peer with
    consecTimeouts := 0
    badTime := 0
    chunk := none
    downloading := false
    lastResponse := -1 }

/- `reset_peers`. -/
@[simps]
def resetPeers
    (c : BtConfig) : BtConfig :=
  { c with
    peer := fun p =>
      if p ∈ c.peers then resetPeer (c.peer p)
      else c.peer p }

/- The assignments of `process_user_get` before its loop. -/
@[simps]
def startGet
    (chunkfile outputfile : Path)
    (c : BtConfig) : BtConfig :=
  { c.resetPeers with
    outputFile := outputfile
    numChunks := 0
    curDownload := 0
    numDownloaded := 0
    getChunkFile := chunkfile }

/- The assignments of `add_receiver_list`. -/
@[simps]
def addReceiver
    (hash : Hash)
    (id : Int)
    (owned : Bool)
    (c : BtConfig) : BtConfig :=
  { c with
    chunk := Function.update c.chunk c.nextChunk
      (some
        { id := id
          hash := hash
          nextExpected := initSeqnum
          downloaded := owned
          totalData := if owned then btChunkSize else 0
          peer := none
          peers := []
          packets := .live [] })
    nextChunk := c.nextChunk + 1
    download := c.download ++ [c.nextChunk]
    numDownloaded :=
      if owned then c.numDownloaded + 1
      else c.numDownloaded
    numChunks := c.numChunks + 1 }

end BtConfig

/- `add_receiver_list`. -/
def addReceiverList
    (env : Env)
    (hash : Hash)
    (id : Int) : Prog Unit := do
  let n ← get
  let owned ← lift (hasChunk env n.files n.config hash)
  modify (Node.onConfig
    (BtConfig.addReceiver hash id (decide (owned ≠ -1))))

/- The loop of `process_user_get` over the chunk file. -/
def addChunks
    (env : Env) :
    Nat → Bytes → Bytes → Prog Unit
| 0, _, _ => throw .hang
| fuel + 1, input, buf =>
    match Scanf.scanIntWord input with
    | .both id word rest => do
        let buf ← lift (storeWord word buf)
        addReceiverList env (hex2binary buf) id
        addChunks env fuel rest buf
    | _ => pure ()

/- `process_user_get`. -/
def processUserGet
    (env : Env)
    (chunkfile outputfile : Path) : Prog Unit := do
  let n ← get
  match n.files.content chunkfile with
  | none => return ()
  | some text =>
      modify (Node.onConfig
        (BtConfig.startGet chunkfile outputfile))
      addChunks env (text.length + 1) text (textBuffer env)
      let _ ← sendWhohas env
      let c := (← get).config
      if c.numDownloaded = c.numChunks then
        finishGet env

end PeerNet
